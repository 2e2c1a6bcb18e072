import Awb.Lib.Masks

/-! `WARMUP_MANAGER_CLASS`: callbacks are registered for all hardware contexts or for one of them,
and `DoWarmUp` hands out to them what the feeders know about earlier instructions. -/

namespace Awb.Warmup

abbrev Addr := BitVec 64

/-- A virtual address and a physical one. -/
structure Fetch where
  va : Addr
  pa : Addr
  deriving DecidableEq

structure MemRef where
  va : Addr
  pa : Addr
  nBytes : BitVec 32
  deriving DecidableEq

/-- `WARMUP_INFO_CLASS`. The instruction of a control transfer is known, `GetAsimInst` asserts. -/
structure Info (ι : Type) where
  aInst : Option ι
  iFetch : Option Fetch
  loads : List MemRef
  stores : List MemRef
  isCtrlTransfer : Bool
  isValid : isCtrlTransfer = true → aInst.isSome = true

/-- `WARMUP_DATA_CLASS`. -/
structure DataRef (ι : Type) where
  isLoad : Bool
  ref : MemRef
  aInst : Option ι
  instrAddr : Option Fetch

variable {η κ ι : Type}

inductive Call (η κ ι : Type)
  | clientInfo (hwc : η) (monitorDCache monitorICache monitorInstrs : Bool)
  | phase (cbk : κ) (isStart : Bool)
  | tick (cbk : κ)
  | data (cbk : κ) (hwc : η) (wData : DataRef ι)
  | iFetch (cbk : κ) (hwc : η) (wFetch : Fetch)
  | instr (cbk : κ) (hwc : η) (aInst : ι)

/-! ### Callbacks for the lines of instructions -/

/-- `IFETCH_CALLBACK_CLASS`. -/
structure IFetchCallback (κ : Type) where
  cbk : κ
  lineMask : Addr
  lastVA : Addr

namespace IFetchCallback

def lineMaskOf (lineBytes : BitVec 32) : Addr := ~~~((lineBytes - 1).setWidth 64)

/-- The size of a line has to be a power of 2. -/
def new (cbk : κ) (lineBytes : BitVec 32) : Option (IFetchCallback κ) :=
  if lineBytes &&& (lineBytes - 1) = 0 ∧ lineBytes ≠ 0 then some ⟨cbk, lineMaskOf lineBytes, 0⟩
  else none

/-- `CallIfNewLine`. -/
def callIfNewLine (c : IFetchCallback κ) (hwc : η) (wFetch : Fetch) :
    IFetchCallback κ × List (Call η κ ι) :=
  let nextVA := wFetch.va &&& c.lineMask
  if nextVA ≠ c.lastVA then ({ c with lastVA := nextVA }, [.iFetch c.cbk hwc wFetch])
  else (c, [])

end IFetchCallback

/-! ### Registration -/

/-- `WARMUP_HWC_CLASS`. -/
structure Hwc (η κ : Type) where
  hwc : η
  dataCallbacks : List κ
  ifetchCallbacks : List (IFetchCallback κ)
  instrCallbacks : List κ
  nDataInits : BitVec 64
  nIFetchInits : BitVec 64
  nCtrlInits : BitVec 64
  nEmptyInits : BitVec 64

structure Manager (η κ : Type) where
  hwcs : List (Hwc η κ)
  globalPhaseCallbacks : List κ
  globalTickCallbacks : List κ
  globalDataCallbacks : List κ
  globalIFetchCallbacks : List (IFetchCallback κ)
  globalInstrCallbacks : List κ
  nDataCallbacks : BitVec 32
  nIFetchCallbacks : BitVec 32
  nInstrCallbacks : BitVec 32

inductive Registration (η κ : Type)
  | hwc (hwc : η)
  | phases (cbk : κ)
  | ticks (cbk : κ)
  | data (cbk : κ) (hwc : Option η)
  | iFetch (cbk : κ) (hwc : Option η) (lineBytes : BitVec 32)
  | instrs (cbk : κ) (hwc : Option η)

namespace Manager

def empty : Manager η κ := ⟨[], [], [], [], [], [], 0, 0, 0⟩

/-- The first context with the name, as `FindHWC` finds it; it is an error if there is none. -/
def modifyHwc [DecidableEq η] (m : Manager η κ) (hwc : η) (f : Hwc η κ → Hwc η κ) :
    Option (Manager η κ) :=
  (m.hwcs.findIdx? fun w => w.hwc = hwc).bind fun i =>
    m.hwcs[i]?.map fun w => { m with hwcs := m.hwcs.set i (f w) }

/-- The registration functions. -/
def register [DecidableEq η] (m : Manager η κ) : Registration η κ → Option (Manager η κ)
  | .hwc hwc => some { m with hwcs := m.hwcs ++ [⟨hwc, [], [], [], 0, 0, 0, 0⟩] }
  | .phases cbk => some { m with globalPhaseCallbacks := m.globalPhaseCallbacks ++ [cbk] }
  | .ticks cbk => some { m with globalTickCallbacks := m.globalTickCallbacks ++ [cbk] }
  | .data cbk hwc =>
    let m := { m with nDataCallbacks := m.nDataCallbacks + 1 }
    match hwc with
    | none => some { m with globalDataCallbacks := m.globalDataCallbacks ++ [cbk] }
    | some hwc => m.modifyHwc hwc fun w => { w with dataCallbacks := w.dataCallbacks ++ [cbk] }
  | .iFetch cbk hwc lineBytes =>
    (IFetchCallback.new cbk lineBytes).bind fun ifCbk =>
      let m := { m with nIFetchCallbacks := m.nIFetchCallbacks + 1 }
      match hwc with
      | none => some { m with globalIFetchCallbacks := m.globalIFetchCallbacks ++ [ifCbk] }
      | some hwc =>
        m.modifyHwc hwc fun w => { w with ifetchCallbacks := w.ifetchCallbacks ++ [ifCbk] }
  | .instrs cbk hwc =>
    let m := { m with nInstrCallbacks := m.nInstrCallbacks + 1 }
    match hwc with
    | none => some { m with globalInstrCallbacks := m.globalInstrCallbacks ++ [cbk] }
    | some hwc => m.modifyHwc hwc fun w => { w with instrCallbacks := w.instrCallbacks ++ [cbk] }

end Manager

/-! ### Records -/

namespace Info

/-- The data references of a record: first its loads, then its stores. -/
def dataRefs (info : Info ι) : List (DataRef ι) :=
  info.loads.map (⟨true, ·, info.aInst, info.iFetch⟩) ++
    info.stores.map (⟨false, ·, info.aInst, info.iFetch⟩)

def ctrlTransfer (info : Info ι) : Option ι := if info.isCtrlTransfer then info.aInst else none

def hadData (info : Info ι) : Bool :=
  info.isCtrlTransfer || info.iFetch.isSome || !info.loads.isEmpty || !info.stores.isEmpty

end Info

/-- `CallDataCallbacks`. -/
def callDataCallbacks (cbkList : List κ) (hwc : η) (wData : DataRef ι) : List (Call η κ ι) :=
  cbkList.map fun cbk => .data cbk hwc wData

/-- `CallInstrCallbacks`. -/
def callInstrCallbacks (cbkList : List κ) (hwc : η) (aInst : ι) : List (Call η κ ι) :=
  cbkList.map fun cbk => .instr cbk hwc aInst

/-- `CallIFetchCallbacks`. -/
def callIFetchCallbacks (cbkList : List (IFetchCallback κ)) (hwc : η) (wFetch : Fetch) :
    List (IFetchCallback κ) × List (Call η κ ι) :=
  (cbkList.map fun c => (c.callIfNewLine (ι := ι) hwc wFetch).1,
    cbkList.flatMap fun c => (c.callIfNewLine hwc wFetch).2)

/-- The callbacks for a record without a fetch are not asked. -/
def noteIFetch (cbkList : List (IFetchCallback κ)) (hwc : η) :
    Option Fetch → List (IFetchCallback κ) × List (Call η κ ι)
  | none => (cbkList, [])
  | some wFetch => callIFetchCallbacks cbkList hwc wFetch

/-- The statistics of a context, and what its callbacks have seen. -/
def Hwc.count (w : Hwc η κ) (info : Info ι) (ifetchCallbacks : List (IFetchCallback κ)) :
    Hwc η κ :=
  { w with
    ifetchCallbacks := ifetchCallbacks
    nCtrlInits := w.nCtrlInits + if info.isCtrlTransfer then 1 else 0
    nIFetchInits := w.nIFetchInits + if info.iFetch.isSome then 1 else 0
    nDataInits := w.nDataInits + BitVec.ofNat 64 info.dataRefs.length
    nEmptyInits := w.nEmptyInits + if info.hadData then 0 else 1 }

namespace Manager

def instrCalls (m : Manager η κ) (w : Hwc η κ) (info : Info ι) : List (Call η κ ι) :=
  info.ctrlTransfer.toList.flatMap fun aInst =>
    callInstrCallbacks m.globalInstrCallbacks w.hwc aInst ++
      callInstrCallbacks w.instrCallbacks w.hwc aInst

def dataCalls (m : Manager η κ) (w : Hwc η κ) (info : Info ι) : List (Call η κ ι) :=
  info.dataRefs.flatMap fun wData =>
    callDataCallbacks m.globalDataCallbacks w.hwc wData ++
      callDataCallbacks w.dataCallbacks w.hwc wData

/-- What is done with a record of the context at a position. -/
def dispatch (m : Manager η κ) (i : ℕ) (info : Info ι) : Manager η κ × List (Call η κ ι) :=
  match m.hwcs[i]? with
  | none => (m, [])
  | some w =>
    let globals := noteIFetch m.globalIFetchCallbacks w.hwc info.iFetch
    let locals := noteIFetch w.ifetchCallbacks w.hwc info.iFetch
    ({ m with globalIFetchCallbacks := globals.1, hwcs := m.hwcs.set i (w.count info locals.1) },
      m.instrCalls w info ++ (globals.2 ++ locals.2) ++ m.dataCalls w info)

/-- The answers of the feeders when each context is asked once, by the positions of the contexts. -/
abbrev Round (ι : Type) := ℕ → Option (Info ι)

/-- A context is asked; the last component is whether there was an answer. -/
def ask (r : Round ι) (enableWarmup : Bool) (s : Manager η κ × List (Call η κ ι) × Bool) (i : ℕ) :
    Manager η κ × List (Call η κ ι) × Bool :=
  match r i with
  | none => s
  | some info =>
    if enableWarmup then ((s.1.dispatch i info).1, s.2.1 ++ (s.1.dispatch i info).2, true)
    else (s.1, s.2.1, true)

/-- One turn of the outer loop. -/
def round (m : Manager η κ) (r : Round ι) (enableWarmup : Bool) :
    Manager η κ × List (Call η κ ι) × Bool :=
  (List.range m.hwcs.length).foldl (ask r enableWarmup) (m, [], false)

/-- The outer loop; at the end of the list the feeders have no more. -/
def rounds (enableWarmup : Bool) : List (Round ι) → Manager η κ → Manager η κ × List (Call η κ ι)
  | [], m => (m, [])
  | r :: rs, m =>
    match m.round r enableWarmup with
    | (m, calls, true) =>
      let ticks := if enableWarmup then m.globalTickCallbacks.map .tick else []
      ((rounds enableWarmup rs m).1, calls ++ ticks ++ (rounds enableWarmup rs m).2)
    | (m, calls, false) => (m, calls)

/-- `DoWarmUp`. -/
def doWarmUp (enableWarmup : Bool) (m : Manager η κ) (rs : List (Round ι)) :
    Manager η κ × List (Call η κ ι) :=
  let clients := m.hwcs.map fun w => Call.clientInfo w.hwc (enableWarmup && m.nDataCallbacks ≠ 0)
    (enableWarmup && m.nIFetchCallbacks ≠ 0) (enableWarmup && m.nInstrCallbacks ≠ 0)
  let more := m.rounds enableWarmup rs
  (more.1, clients ++ m.globalPhaseCallbacks.map (.phase · true) ++ more.2 ++
    m.globalPhaseCallbacks.map (.phase · false))

/-- Some calls of `DoWarmUp`. -/
def doWarmUps (enableWarmup : Bool) : Manager η κ → List (List (Round ι)) →
    Manager η κ × List (Call η κ ι)
  | m, [] => (m, [])
  | m, rs :: runs =>
    let first := m.doWarmUp enableWarmup rs
    let rest := first.1.doWarmUps enableWarmup runs
    (rest.1, first.2 ++ rest.2)

end Manager

/-! ### What the callbacks should see -/

namespace Registration

def context : Registration η κ → Option η
  | .hwc h => some h
  | _ => none

def dataCbk : Registration η κ → Option κ
  | .data cbk _ => some cbk
  | _ => none

def fetchCbk : Registration η κ → Option κ
  | .iFetch cbk _ _ => some cbk
  | _ => none

def instrCbk : Registration η κ → Option κ
  | .instrs cbk _ => some cbk
  | _ => none

end Registration

section
variable [DecidableEq η] [DecidableEq κ]

namespace Call

def dataFor (k : κ) (h : η) : Call η κ ι → Option (DataRef ι)
  | .data cbk hwc wData => if cbk = k ∧ hwc = h then some wData else none
  | _ => none

def fetchFor (k : κ) (h : η) : Call η κ ι → Option Fetch
  | .iFetch cbk hwc wFetch => if cbk = k ∧ hwc = h then some wFetch else none
  | _ => none

def instrFor (k : κ) (h : η) : Call η κ ι → Option ι
  | .instr cbk hwc aInst => if cbk = k ∧ hwc = h then some aInst else none
  | _ => none

end Call

def Registration.scope : Registration η κ → Option η
  | .data _ s => s
  | .iFetch _ s _ => s
  | .instrs _ s => s
  | _ => none

/-- How often a callback is registered for a context: for it alone, or for all contexts. -/
def timesFor (cbk : Registration η κ → Option κ) (k : κ) (h : η)
    (regs : List (Registration η κ)) : ℕ :=
  regs.countP fun r => cbk r = some k ∧ r.scope.all (· = h)

/-- The records of a turn, with their contexts. -/
def delivered (contexts : List η) (r : Manager.Round ι) : List (η × Info ι) :=
  (List.range contexts.length).filterMap fun i =>
    (r i).bind fun info => contexts[i]?.map (·, info)

/-- The records of a call of `DoWarmUp`: it ends with the first turn without a record. -/
def deliveredBy (contexts : List η) (rs : List (Manager.Round ι)) : List (η × Info ι) :=
  (rs.takeWhile fun r => !(delivered contexts r).isEmpty).flatMap (delivered contexts)

def recordsOf (h : η) (records : List (η × Info ι)) : List (Info ι) :=
  records.filterMap fun d => if d.1 = h then some d.2 else none

def fetchesOf (h : η) (records : List (η × Info ι)) : List Fetch :=
  (recordsOf h records).filterMap Info.iFetch

/-- The line of a fetch: its address rounded down. -/
def lineOf (lineBytes : ℕ) (f : Fetch) : ℕ := lineBytes * (f.va.toNat / lineBytes)

/-- The fetches from other lines than the last one. -/
def newLines (lineBytes : ℕ) : Option ℕ → List Fetch → List Fetch
  | _, [] => []
  | last, f :: fs =>
    if last = some (lineOf lineBytes f) then newLines lineBytes last fs
    else f :: newLines lineBytes (some (lineOf lineBytes f)) fs

/-- The callbacks are called in the order of the records of each context: for a data reference and
a control transfer once for each registration, and for a fetch of the one context that a callback
is registered for if the line is a new one. -/
structure Dispatches (regs : List (Registration η κ)) (records : List (η × Info ι))
    (log : List (Call η κ ι)) : Prop where
  data : ∀ k h, log.filterMap (Call.dataFor k h) = (recordsOf h records).flatMap fun info =>
    info.dataRefs.flatMap (List.replicate (timesFor Registration.dataCbk k h regs))
  instrs : ∀ k h, log.filterMap (Call.instrFor k h) = (recordsOf h records).flatMap fun info =>
    info.ctrlTransfer.toList.flatMap (List.replicate (timesFor Registration.instrCbk k h regs))
  fetches : ∀ k h lineBytes, .iFetch k (some h) lineBytes ∈ regs →
    timesFor Registration.fetchCbk k h regs = 1 →
    log.filterMap (Call.fetchFor k h) = newLines lineBytes.toNat none (fetchesOf h records)

/-! ### The lists of callbacks -/

/-- The callbacks of one kind that are registered for everything, or for one context. -/
def listFor (cbk : Registration η κ → Option κ) (s : Option η) (regs : List (Registration η κ)) :
    List κ :=
  (regs.filter fun r => r.scope = s).filterMap cbk

omit [DecidableEq κ] in
theorem listFor_concat (cbk : Registration η κ → Option κ) (s : Option η)
    (regs : List (Registration η κ)) (r : Registration η κ) :
    listFor cbk s (regs ++ [r]) =
      listFor cbk s regs ++ if r.scope = s then (cbk r).toList else [] := by
  rw [listFor, List.filter_append, List.filterMap_append]
  split_ifs with hscope
  · rw [List.filter_cons_of_pos (by simpa using hscope), List.filter_nil]
    cases hcbk : cbk r <;> simp [hcbk, listFor]
  · rw [List.filter_cons_of_neg (by simpa using hscope), List.filter_nil]
    rfl

/-- The lists that a context is asked for have a callback as often as it is registered for it. -/
theorem count_listFor (cbk : Registration η κ → Option κ) (k : κ) (h : η)
    (regs : List (Registration η κ)) :
    (listFor cbk none regs).count k + (listFor cbk (some h) regs).count k =
      timesFor cbk k h regs := by
  induction regs using List.reverseRecOn with
  | nil => rfl
  | append_singleton regs r ih =>
    have hcount : (cbk r).toList.count k = if cbk r = some k then 1 else 0 := by
      cases hr : cbk r <;> simp [List.count_singleton]
    rw [listFor_concat, listFor_concat, List.count_append, List.count_append, timesFor,
      List.countP_append, List.countP_singleton, ← timesFor, ← ih]
    cases hscope : r.scope with
    | none => simp [hcount]; omega
    | some s =>
      by_cases hs : s = h
      · simp [hs, hcount]; omega
      · simp [hs]

omit [DecidableEq η] in
/-- How often a callback is called. -/
theorem filterMap_callbacks {β : Type} (cbkList : List κ) {call : κ → Call η κ ι}
    {p : Call η κ ι → Option β} {k : κ} {x : β}
    (h : ∀ cbk, p (call cbk) = if cbk = k then some x else none) :
    (cbkList.map call).filterMap p = List.replicate (cbkList.count k) x := by
  induction cbkList with
  | nil => rfl
  | cons cbk cbkList ih =>
    rw [List.map_cons, List.filterMap_cons, h, ih, List.count_cons]
    by_cases hcbk : cbk = k
    · simp [hcbk, List.replicate_succ]
    · simp [hcbk]

/-- The lists of a manager are those of the registrations. -/
structure Serves (m : Manager η κ) (regs : List (Registration η κ)) : Prop where
  contexts : m.hwcs.map Hwc.hwc = regs.filterMap Registration.context
  data : m.globalDataCallbacks = listFor Registration.dataCbk none regs
  dataFor : ∀ w ∈ m.hwcs, w.dataCallbacks = listFor Registration.dataCbk (some w.hwc) regs
  fetches : m.globalIFetchCallbacks.map IFetchCallback.cbk =
    listFor Registration.fetchCbk none regs
  fetchesFor : ∀ w ∈ m.hwcs, w.ifetchCallbacks.map IFetchCallback.cbk =
    listFor Registration.fetchCbk (some w.hwc) regs
  instrs : m.globalInstrCallbacks = listFor Registration.instrCbk none regs
  instrsFor : ∀ w ∈ m.hwcs, w.instrCallbacks = listFor Registration.instrCbk (some w.hwc) regs

/-- What the callback of a context has seen last. -/
def Tracks (m : Manager η κ) (k : κ) (hwc : η) (mask last : Addr) : Prop :=
  ∃ w ∈ m.hwcs, w.hwc = hwc ∧ ⟨k, mask, last⟩ ∈ w.ifetchCallbacks

omit [DecidableEq η] [DecidableEq κ] in
/-- Of contexts with different names one is changed, and the others are not. -/
theorem mem_set_hwcs {hwcs : List (Hwc η κ)} (hnodup : (hwcs.map Hwc.hwc).Nodup) {i : ℕ}
    {w : Hwc η κ} (hi : hwcs[i]? = some w) (w' : Hwc η κ) :
    (∀ v ∈ hwcs.set i w', v = w' ∨ v ∈ hwcs ∧ v.hwc ≠ w.hwc) ∧ w' ∈ hwcs.set i w' ∧
      ∀ v ∈ hwcs, v.hwc ≠ w.hwc → v ∈ hwcs.set i w' := by
  have hlt := (List.getElem?_eq_some_iff.mp hi).1
  have hne : ∀ {j v}, hwcs[j]? = some v → j ≠ i → v.hwc ≠ w.hwc := by
    intro j v hj hji hname
    have hj' : j < (hwcs.map Hwc.hwc).length := by
      rw [List.length_map]
      exact (List.getElem?_eq_some_iff.mp hj).1
    refine hji ((List.getElem?_inj hj' hnodup).mp ?_)
    rw [List.getElem?_map, List.getElem?_map, hj, hi, Option.map_some, Option.map_some, hname]
  refine ⟨fun v hv => ?_, List.mem_set hlt .., fun v hv hname => ?_⟩
  · obtain ⟨j, hj⟩ := List.mem_iff_getElem?.mp hv
    by_cases hji : j = i
    · rw [hji, List.getElem?_set_self hlt] at hj
      exact Or.inl (Option.some.inj hj).symm
    · rw [List.getElem?_set_ne (Ne.symm hji)] at hj
      exact Or.inr ⟨List.mem_of_getElem? hj, hne hj hji⟩
  · obtain ⟨j, hj⟩ := List.mem_iff_getElem?.mp hv
    have hji : j ≠ i := by
      rintro rfl
      exact hname (congrArg Hwc.hwc (Option.some.inj (hj.symm.trans hi)))
    exact List.mem_iff_getElem?.mpr ⟨j, (List.getElem?_set_ne (Ne.symm hji)).trans hj⟩

/-! ### Registering -/

/-- The manager after some registrations, which were possible. -/
structure Registered (m : Manager η κ) (regs : List (Registration η κ)) : Prop where
  serves : Serves m regs
  known : ∀ r ∈ regs, ∀ hwc, r.scope = some hwc → hwc ∈ regs.filterMap Registration.context
  tracks : ∀ k hwc lineBytes, .iFetch k (some hwc) lineBytes ∈ regs →
    Tracks m k hwc (IFetchCallback.lineMaskOf lineBytes) 0
  lineBytes : ∀ k hwc lineBytes, .iFetch k hwc lineBytes ∈ regs →
    lineBytes &&& (lineBytes - 1) = 0 ∧ lineBytes ≠ 0

omit [DecidableEq κ] in
theorem modifyHwc_eq_some {m m' : Manager η κ} {hwc : η} {f : Hwc η κ → Hwc η κ}
    (h : m.modifyHwc hwc f = some m') : ∃ i w, m.hwcs[i]? = some w ∧ w.hwc = hwc ∧
      m' = { m with hwcs := m.hwcs.set i (f w) } := by
  obtain ⟨i, hi, h⟩ := Option.bind_eq_some_iff.mp h
  obtain ⟨w, hw, rfl⟩ := Option.map_eq_some_iff.mp h
  obtain ⟨hlt, hname, -⟩ := List.findIdx?_eq_some_iff_getElem.mp hi
  rw [List.getElem?_eq_getElem hlt] at hw
  rw [Option.some.inj hw] at hname
  exact ⟨i, w, (List.getElem?_eq_getElem hlt).trans hw, by simpa using hname, rfl⟩

omit [DecidableEq κ] in
/-- A registration of another kind, or for something else, changes nothing in a list. -/
theorem listFor_concat_other {cbk : Registration η κ → Option κ} {s : Option η}
    {r : Registration η κ} (h : cbk r = none ∨ r.scope ≠ s) (regs : List (Registration η κ)) :
    listFor cbk s (regs ++ [r]) = listFor cbk s regs := by
  rw [listFor_concat]
  split_ifs with hscope
  · rw [h.resolve_right (not_not_intro hscope), Option.toList_none, List.append_nil]
  · exact List.append_nil _

omit [DecidableEq κ] in
theorem listFor_concat_own {cbk : Registration η κ → Option κ} {r : Registration η κ} {k : κ}
    (h : cbk r = some k) (regs : List (Registration η κ)) :
    listFor cbk r.scope (regs ++ [r]) = listFor cbk r.scope regs ++ [k] := by
  rw [listFor_concat, if_pos rfl, h, Option.toList_some]

omit [DecidableEq κ] in
/-- A callback is added to the list of one context. -/
theorem Serves.inContext {m : Manager η κ} {regs : List (Registration η κ)} (h : Serves m regs)
    (hnodup : (regs.filterMap Registration.context).Nodup) {r : Registration η κ} {i : ℕ}
    {w w' : Hwc η κ} (hi : m.hwcs[i]? = some w) (hname : w'.hwc = w.hwc)
    (hscope : r.scope = some w.hwc) (hctx : r.context = none)
    (hdata : w'.dataCallbacks = w.dataCallbacks ++ r.dataCbk.toList)
    (hfetch : w'.ifetchCallbacks.map IFetchCallback.cbk =
      w.ifetchCallbacks.map IFetchCallback.cbk ++ r.fetchCbk.toList)
    (hinstr : w'.instrCallbacks = w.instrCallbacks ++ r.instrCbk.toList) :
    Serves { m with hwcs := m.hwcs.set i w' } (regs ++ [r]) := by
  have hw : w ∈ m.hwcs := List.mem_of_getElem? hi
  obtain ⟨hcases, -, -⟩ := mem_set_hwcs (h.contexts ▸ hnodup) hi w'
  have hglobal : r.scope ≠ none := by
    rw [hscope]
    exact Option.some_ne_none _
  have hown : ∀ cbk : Registration η κ → Option κ, listFor cbk (some w.hwc) (regs ++ [r]) =
      listFor cbk (some w.hwc) regs ++ (cbk r).toList := by
    intro cbk
    rw [listFor_concat, if_pos hscope]
  have hother : ∀ {v : Hwc η κ}, v.hwc ≠ w.hwc → r.scope ≠ some v.hwc := by
    intro v hv heq
    rw [hscope] at heq
    exact hv (Option.some.inj heq).symm
  refine ⟨?_, ?_, ?_, ?_, ?_, ?_, ?_⟩
  · have hlist : (m.hwcs.set i w').map Hwc.hwc = m.hwcs.map Hwc.hwc := by
      refine List.ext_getElem? fun j => ?_
      rw [List.map_set, List.getElem?_set, List.getElem?_map]
      split_ifs with hji hlt
      · rw [← hji, hi, hname, Option.map_some]
      · rw [← hji, List.getElem?_eq_none (by simpa using hlt), Option.map_none]
      · rfl
    rw [List.filterMap_append, List.filterMap_cons_none hctx, List.filterMap_nil, List.append_nil]
    exact hlist.trans h.contexts
  · rw [listFor_concat_other (Or.inr hglobal)]
    exact h.data
  · intro v hv
    rcases hcases v hv with rfl | ⟨hv, hne⟩
    · rw [hdata, hname, hown, h.dataFor w hw]
    · rw [listFor_concat_other (Or.inr (hother hne)), h.dataFor v hv]
  · rw [listFor_concat_other (Or.inr hglobal)]
    exact h.fetches
  · intro v hv
    rcases hcases v hv with rfl | ⟨hv, hne⟩
    · rw [hfetch, hname, hown, h.fetchesFor w hw]
    · rw [listFor_concat_other (Or.inr (hother hne)), h.fetchesFor v hv]
  · rw [listFor_concat_other (Or.inr hglobal)]
    exact h.instrs
  · intro v hv
    rcases hcases v hv with rfl | ⟨hv, hne⟩
    · rw [hinstr, hname, hown, h.instrsFor w hw]
    · rw [listFor_concat_other (Or.inr (hother hne)), h.instrsFor v hv]

omit [DecidableEq κ] in
theorem Serves.hwc {m : Manager η κ} {regs : List (Registration η κ)} (h : Serves m regs)
    {hwc : η} (hnew : ∀ r ∈ regs, r.scope ≠ some hwc) :
    Serves { m with hwcs := m.hwcs ++ [⟨hwc, [], [], [], 0, 0, 0, 0⟩] } (regs ++ [.hwc hwc]) := by
  have hkeep : ∀ {cbk : Registration η κ → Option κ}, cbk (.hwc hwc) = none → ∀ s,
      listFor cbk s (regs ++ [.hwc hwc]) = listFor cbk s regs :=
    fun hcbk s => listFor_concat_other (Or.inl hcbk) regs
  have hempty : ∀ cbk : Registration η κ → Option κ, listFor cbk (some hwc) regs = [] := by
    intro cbk
    rw [listFor, List.filter_eq_nil_iff.mpr fun r hr => by simpa using hnew r hr]
    rfl
  have hall : ∀ {p : Hwc η κ → Prop}, (∀ w ∈ m.hwcs, p w) → p ⟨hwc, [], [], [], 0, 0, 0, 0⟩ →
      ∀ w ∈ m.hwcs ++ [⟨hwc, [], [], [], 0, 0, 0, 0⟩], p w := by
    intro p hold hlast w hw
    rcases List.mem_append.mp hw with hw | hw
    · exact hold w hw
    · exact List.mem_singleton.mp hw ▸ hlast
  refine ⟨?_, ?_, hall ?_ ?_, ?_, hall ?_ ?_, ?_, hall ?_ ?_⟩
  · rw [List.map_append, List.filterMap_append, h.contexts]
    rfl
  · exact h.data.trans (hkeep rfl none).symm
  · exact fun w hw => (h.dataFor w hw).trans (hkeep rfl _).symm
  · exact ((hkeep rfl _).trans (hempty _)).symm
  · exact h.fetches.trans (hkeep rfl none).symm
  · exact fun w hw => (h.fetchesFor w hw).trans (hkeep rfl _).symm
  · exact ((hkeep rfl _).trans (hempty _)).symm
  · exact h.instrs.trans (hkeep rfl none).symm
  · exact fun w hw => (h.instrsFor w hw).trans (hkeep rfl _).symm
  · exact ((hkeep rfl _).trans (hempty _)).symm

omit [DecidableEq κ] in
/-- A callback is added to the global lists. -/
theorem Serves.global {m m' : Manager η κ} {regs : List (Registration η κ)} (h : Serves m regs)
    {r : Registration η κ} (hscope : r.scope = none) (hctx : r.context = none)
    (hhwcs : m'.hwcs = m.hwcs)
    (hdata : m'.globalDataCallbacks = m.globalDataCallbacks ++ r.dataCbk.toList)
    (hfetch : m'.globalIFetchCallbacks.map IFetchCallback.cbk =
      m.globalIFetchCallbacks.map IFetchCallback.cbk ++ r.fetchCbk.toList)
    (hinstr : m'.globalInstrCallbacks = m.globalInstrCallbacks ++ r.instrCbk.toList) :
    Serves m' (regs ++ [r]) := by
  have hown : ∀ cbk : Registration η κ → Option κ,
      listFor cbk none (regs ++ [r]) = listFor cbk none regs ++ (cbk r).toList := by
    intro cbk
    rw [listFor_concat, if_pos hscope]
  have hother : ∀ (cbk : Registration η κ → Option κ) hwc,
      listFor cbk (some hwc) (regs ++ [r]) = listFor cbk (some hwc) regs := by
    intro cbk hwc
    refine listFor_concat_other (Or.inr ?_) regs
    rw [hscope]
    exact (Option.some_ne_none hwc).symm
  refine ⟨?_, ?_, ?_, ?_, ?_, ?_, ?_⟩
  · rw [hhwcs, h.contexts, List.filterMap_append, List.filterMap_cons_none hctx,
      List.filterMap_nil, List.append_nil]
  · rw [hdata, hown, h.data]
  · intro w hw
    rw [hother, h.dataFor w (hhwcs ▸ hw)]
  · rw [hfetch, hown, h.fetches]
  · intro w hw
    rw [hother, h.fetchesFor w (hhwcs ▸ hw)]
  · rw [hinstr, hown, h.instrs]
  · intro w hw
    rw [hother, h.instrsFor w (hhwcs ▸ hw)]

omit [DecidableEq η] [DecidableEq κ] in
theorem Tracks.mono {m m' : Manager η κ} {k : κ} {hwc : η} {mask last : Addr}
    (h : Tracks m k hwc mask last) (hsub : ∀ v ∈ m.hwcs, ∃ v' ∈ m'.hwcs, v'.hwc = v.hwc ∧
      v.ifetchCallbacks ⊆ v'.ifetchCallbacks) : Tracks m' k hwc mask last := by
  obtain ⟨v, hv, hname, hmem⟩ := h
  obtain ⟨v', hv', hname', hsub'⟩ := hsub v hv
  exact ⟨v', hv', hname'.trans hname, hsub' hmem⟩

omit [DecidableEq κ] in
/-- A registration for one context: the context is there, and keeps what it has. -/
theorem register_inContext {m m₁ m' : Manager η κ} {regs : List (Registration η κ)}
    (hctx : (regs.filterMap Registration.context).Nodup) {hwc : η}
    {f : Hwc η κ → Hwc η κ} {r : Registration η κ} (hm : m₁.modifyHwc hwc f = some m')
    (hm₁ : m₁.hwcs = m.hwcs) (hserves : Serves m₁ regs) (hscope : r.scope = some hwc)
    (hcontext : r.context = none) (hname : ∀ w, (f w).hwc = w.hwc)
    (hdata : ∀ w, (f w).dataCallbacks = w.dataCallbacks ++ r.dataCbk.toList)
    (hfetch : ∀ w, (f w).ifetchCallbacks.map IFetchCallback.cbk =
      w.ifetchCallbacks.map IFetchCallback.cbk ++ r.fetchCbk.toList)
    (hsub : ∀ w, w.ifetchCallbacks ⊆ (f w).ifetchCallbacks)
    (hinstr : ∀ w, (f w).instrCallbacks = w.instrCallbacks ++ r.instrCbk.toList) :
    Serves m' (regs ++ [r]) ∧ hwc ∈ (regs ++ [r]).filterMap Registration.context ∧
      (∀ {k hwc' mask last}, Tracks m k hwc' mask last → Tracks m' k hwc' mask last) ∧
      ∃ w, f w ∈ m'.hwcs ∧ w.hwc = hwc := by
  obtain ⟨i, w, hi, rfl, rfl⟩ := modifyHwc_eq_some hm
  have hw : w ∈ m₁.hwcs := List.mem_of_getElem? hi
  obtain ⟨-, hin, hothers⟩ := mem_set_hwcs (hserves.contexts ▸ hctx) hi (f w)
  refine ⟨hserves.inContext hctx hi (hname w) hscope hcontext (hdata w) (hfetch w) (hinstr w), ?_,
    ?_, w, hin, rfl⟩
  · rw [List.filterMap_append, ← hserves.contexts]
    exact List.mem_append_left _ (List.mem_map_of_mem hw)
  · intro k hwc' mask last htracks
    refine htracks.mono fun v hv => ?_
    rw [← hm₁] at hv
    by_cases hvw : v.hwc = w.hwc
    · have heq : v = w := List.inj_on_of_nodup_map (hserves.contexts ▸ hctx) hv hw hvw
      exact ⟨f w, hin, (hname w).trans hvw.symm, heq ▸ hsub w⟩
    · exact ⟨v, hothers v hv hvw, rfl, List.Subset.refl _⟩

omit [DecidableEq κ] in
theorem registered_empty : Registered (Manager.empty : Manager η κ) [] where
  serves := ⟨rfl, rfl, fun _ h => (nomatch h), rfl, fun _ h => (nomatch h), rfl,
    fun _ h => (nomatch h)⟩
  known _ h := nomatch h
  tracks _ _ _ h := nomatch h
  lineBytes _ _ _ h := nomatch h

omit [DecidableEq κ] in
/-- What a registration adds to what was known. -/
theorem Registered.concat {m m' : Manager η κ} {regs : List (Registration η κ)}
    (h : Registered m regs) {r : Registration η κ} (hserves : Serves m' (regs ++ [r]))
    (hknown : ∀ hwc, r.scope = some hwc → hwc ∈ (regs ++ [r]).filterMap Registration.context)
    (hmono : ∀ {k hwc mask last}, Tracks m k hwc mask last → Tracks m' k hwc mask last)
    (htracks : ∀ k hwc lineBytes, r = .iFetch k (some hwc) lineBytes →
      Tracks m' k hwc (IFetchCallback.lineMaskOf lineBytes) 0)
    (hlineBytes : ∀ k hwc lineBytes, r = .iFetch k hwc lineBytes →
      lineBytes &&& (lineBytes - 1) = 0 ∧ lineBytes ≠ 0) : Registered m' (regs ++ [r]) where
  serves := hserves
  known r' hr' hwc hscope := by
    rcases List.mem_append.mp hr' with hr' | hr'
    · rw [List.filterMap_append]
      exact List.mem_append_left _ (h.known r' hr' hwc hscope)
    · obtain rfl := List.mem_singleton.mp hr'
      exact hknown hwc hscope
  tracks k hwc lineBytes hr' := by
    rcases List.mem_append.mp hr' with hr' | hr'
    · exact hmono (h.tracks k hwc lineBytes hr')
    · exact htracks k hwc lineBytes (List.mem_singleton.mp hr').symm
  lineBytes k hwc lineBytes hr' := by
    rcases List.mem_append.mp hr' with hr' | hr'
    · exact h.lineBytes k hwc lineBytes hr'
    · exact hlineBytes k hwc lineBytes (List.mem_singleton.mp hr').symm

omit [DecidableEq κ] in
theorem Registered.step {m m' : Manager η κ} {regs : List (Registration η κ)}
    (h : Registered m regs) {r : Registration η κ}
    (hctx : ((regs ++ [r]).filterMap Registration.context).Nodup) (hm : m.register r = some m') :
    Registered m' (regs ++ [r]) := by
  have hctx' : (regs.filterMap Registration.context).Nodup := by
    rw [List.filterMap_append] at hctx
    exact hctx.of_append_left
  have hnone : ∀ {s : Option η}, s = none → ∀ hwc, s = some hwc →
      hwc ∈ (regs ++ [r]).filterMap Registration.context := by
    rintro _ rfl hwc hsome
    cases hsome
  have hserves : ∀ {m₁ : Manager η κ}, m₁.hwcs = m.hwcs →
      m₁.globalDataCallbacks = m.globalDataCallbacks →
      m₁.globalIFetchCallbacks = m.globalIFetchCallbacks →
      m₁.globalInstrCallbacks = m.globalInstrCallbacks → Serves m₁ regs := by
    intro m₁ hhwcs hdata hfetch hinstr
    exact ⟨hhwcs ▸ h.serves.contexts, hdata ▸ h.serves.data, hhwcs ▸ h.serves.dataFor,
      hfetch ▸ h.serves.fetches, hhwcs ▸ h.serves.fetchesFor, hinstr ▸ h.serves.instrs,
      hhwcs ▸ h.serves.instrsFor⟩
  cases r with
  | hwc hwc =>
    obtain rfl := Option.some.inj hm
    have hnew : ∀ r ∈ regs, r.scope ≠ some hwc := by
      intro r hr hscope
      have hmem := h.known r hr hwc hscope
      rw [List.filterMap_append] at hctx
      exact (List.nodup_append.mp hctx).2.2 hwc hmem hwc (List.mem_singleton.mpr rfl) rfl
    refine h.concat (h.serves.hwc hnew) (hnone rfl) (fun htracks => htracks.mono fun v hv => ?_)
      (fun _ _ _ heq => nomatch heq) fun _ _ _ heq => nomatch heq
    exact ⟨v, List.mem_append_left _ hv, rfl, List.Subset.refl _⟩
  | phases cbk =>
    obtain rfl := Option.some.inj hm
    exact h.concat (h.serves.global rfl rfl rfl (List.append_nil _).symm (List.append_nil _).symm
      (List.append_nil _).symm) (hnone rfl) id (fun _ _ _ heq => nomatch heq)
      fun _ _ _ heq => nomatch heq
  | ticks cbk =>
    obtain rfl := Option.some.inj hm
    exact h.concat (h.serves.global rfl rfl rfl (List.append_nil _).symm (List.append_nil _).symm
      (List.append_nil _).symm) (hnone rfl) id (fun _ _ _ heq => nomatch heq)
      fun _ _ _ heq => nomatch heq
  | data cbk hwc =>
    cases hwc with
    | none =>
      obtain rfl := Option.some.inj hm
      exact h.concat (h.serves.global rfl rfl rfl rfl (List.append_nil _).symm
        (List.append_nil _).symm) (hnone rfl) id (fun _ _ _ heq => nomatch heq)
        fun _ _ _ heq => nomatch heq
    | some hwc =>
      have hm : Manager.modifyHwc { m with nDataCallbacks := m.nDataCallbacks + 1 } hwc
          (fun w => { w with dataCallbacks := w.dataCallbacks ++ [cbk] }) = some m' := hm
      obtain ⟨hserves', hmem, hmono, -⟩ := register_inContext (m := m) (r := .data cbk (some hwc))
        hctx' hm rfl (hserves rfl rfl rfl rfl) rfl rfl (fun _ => rfl) (fun _ => rfl)
        (fun _ => (List.append_nil _).symm) (fun _ => List.Subset.refl _)
        fun _ => (List.append_nil _).symm
      refine h.concat hserves' ?_ hmono (fun _ _ _ heq => nomatch heq) fun _ _ _ heq => nomatch heq
      rintro _ ⟨⟩
      exact hmem
  | instrs cbk hwc =>
    cases hwc with
    | none =>
      obtain rfl := Option.some.inj hm
      exact h.concat (h.serves.global rfl rfl rfl (List.append_nil _).symm
        (List.append_nil _).symm rfl) (hnone rfl) id (fun _ _ _ heq => nomatch heq)
        fun _ _ _ heq => nomatch heq
    | some hwc =>
      have hm : Manager.modifyHwc { m with nInstrCallbacks := m.nInstrCallbacks + 1 } hwc
          (fun w => { w with instrCallbacks := w.instrCallbacks ++ [cbk] }) = some m' := hm
      obtain ⟨hserves', hmem, hmono, -⟩ := register_inContext (m := m) (r := .instrs cbk (some hwc))
        hctx' hm rfl (hserves rfl rfl rfl rfl) rfl rfl (fun _ => rfl)
        (fun _ => (List.append_nil _).symm) (fun _ => (List.append_nil _).symm)
        (fun _ => List.Subset.refl _) fun _ => rfl
      refine h.concat hserves' ?_ hmono (fun _ _ _ heq => nomatch heq) fun _ _ _ heq => nomatch heq
      rintro _ ⟨⟩
      exact hmem
  | iFetch cbk hwc lineBytes =>
    obtain ⟨ifCbk, hnew, hm⟩ := Option.bind_eq_some_iff.mp hm
    obtain ⟨hpow, hnew⟩ := Option.ite_none_right_eq_some.mp hnew
    obtain rfl := Option.some.inj hnew
    have hline : ∀ k hwc' lineBytes', Registration.iFetch cbk hwc lineBytes =
        .iFetch k hwc' lineBytes' → lineBytes' &&& (lineBytes' - 1) = 0 ∧ lineBytes' ≠ 0 := by
      rintro _ _ _ ⟨⟩
      exact hpow
    cases hwc with
    | none =>
      obtain rfl := Option.some.inj hm
      refine h.concat (h.serves.global rfl rfl rfl (List.append_nil _).symm ?_
        (List.append_nil _).symm) (hnone rfl) id (fun _ _ _ heq => nomatch heq) hline
      rw [List.map_append]
      rfl
    | some hwc =>
      have hm : Manager.modifyHwc { m with nIFetchCallbacks := m.nIFetchCallbacks + 1 } hwc
          (fun w => { w with ifetchCallbacks := w.ifetchCallbacks ++
            [⟨cbk, IFetchCallback.lineMaskOf lineBytes, 0⟩] }) = some m' := hm
      obtain ⟨hserves', hmem, hmono, w, hw, rfl⟩ :=
        register_inContext (m := m) (r := .iFetch cbk (some hwc) lineBytes) hctx' hm
          rfl (hserves rfl rfl rfl rfl) rfl rfl (fun _ => rfl) (fun _ => (List.append_nil _).symm)
          (fun _ => List.map_append) (fun _ => List.subset_append_left _ _)
          fun _ => (List.append_nil _).symm
      refine h.concat hserves' ?_ hmono ?_ hline
      · rintro _ ⟨⟩
        exact hmem
      · rintro _ _ _ ⟨⟩
        exact ⟨_, hw, rfl, List.mem_append_right _ (List.mem_singleton.mpr rfl)⟩

omit [DecidableEq κ] in
theorem registered_of_foldlM {m : Manager η κ} {regs : List (Registration η κ)}
    (hctx : (regs.filterMap Registration.context).Nodup)
    (hm : regs.foldlM Manager.register Manager.empty = some m) : Registered m regs := by
  induction regs using List.reverseRecOn generalizing m with
  | nil =>
    obtain rfl := Option.some.inj hm
    exact registered_empty
  | append_singleton regs r ih =>
    rw [List.foldlM_append] at hm
    obtain ⟨m₁, hm₁, hm⟩ := Option.bind_eq_some_iff.mp hm
    have hctx' : (regs.filterMap Registration.context).Nodup := by
      rw [List.filterMap_append] at hctx
      exact hctx.of_append_left
    exact (ih hctx' hm₁).step hctx (by simpa using hm)

/-! ### One record -/

/-- What a callback is called for, of some fetches of its context. -/
def filterLines (mask : Addr) : Addr → List Fetch → List Fetch
  | _, [] => []
  | last, f :: fs =>
    if f.va &&& mask ≠ last then f :: filterLines mask (f.va &&& mask) fs
    else filterLines mask last fs

def lastLine (mask : Addr) : Addr → List Fetch → Addr
  | last, [] => last
  | _, f :: fs => lastLine mask (f.va &&& mask) fs

theorem filterLines_append (mask last : Addr) (fs fs' : List Fetch) :
    filterLines mask last (fs ++ fs') =
      filterLines mask last fs ++ filterLines mask (lastLine mask last fs) fs' := by
  induction fs generalizing last with
  | nil => rfl
  | cons f fs ih =>
    rw [List.cons_append, filterLines, filterLines, lastLine, ih]
    split_ifs with hline
    · rfl
    · rw [ih, not_not.mp hline]

theorem lastLine_append (mask last : Addr) (fs fs' : List Fetch) :
    lastLine mask last (fs ++ fs') = lastLine mask (lastLine mask last fs) fs' := by
  induction fs generalizing last with
  | nil => rfl
  | cons f fs ih => exact ih _

omit [DecidableEq η] [DecidableEq κ] in
theorem map_cbk_noteIFetch (cbkList : List (IFetchCallback κ)) (hwc : η) (f : Option Fetch) :
    (noteIFetch (ι := ι) cbkList hwc f).1.map IFetchCallback.cbk =
      cbkList.map IFetchCallback.cbk := by
  cases f with
  | none => rfl
  | some f =>
    rw [noteIFetch, callIFetchCallbacks, List.map_map]
    refine List.map_congr_left fun c _ => ?_
    rw [Function.comp_apply, IFetchCallback.callIfNewLine]
    split_ifs <;> rfl

theorem noteIFetch_of_notMem {cbkList : List (IFetchCallback κ)} {k : κ}
    (h : k ∉ cbkList.map IFetchCallback.cbk) (hwc : η) (f : Option Fetch) :
    (noteIFetch (ι := ι) cbkList hwc f).2.filterMap (Call.fetchFor k hwc) = [] := by
  cases f with
  | none => rfl
  | some f =>
    rw [noteIFetch, callIFetchCallbacks, List.filterMap_eq_nil_iff]
    intro call hcall
    obtain ⟨c, hc, hcall⟩ := List.mem_flatMap.mp hcall
    rw [IFetchCallback.callIfNewLine] at hcall
    split_ifs at hcall
    · obtain rfl := List.mem_singleton.mp hcall
      have hne : c.cbk ≠ k := fun heq => h (List.mem_map.mpr ⟨c, hc, heq⟩)
      rw [Call.fetchFor, if_neg fun hboth => hne hboth.1]
    · cases hcall

/-- The one callback that is tracked. -/
theorem noteIFetch_of_mem {cbkList : List (IFetchCallback κ)} {k : κ} {mask last : Addr}
    (hcount : (cbkList.map IFetchCallback.cbk).count k = 1) (hmem : ⟨k, mask, last⟩ ∈ cbkList)
    (hwc : η) (f : Option Fetch) :
    ⟨k, mask, lastLine mask last f.toList⟩ ∈ (noteIFetch (ι := ι) cbkList hwc f).1 ∧
      (noteIFetch (ι := ι) cbkList hwc f).2.filterMap (Call.fetchFor k hwc) =
        filterLines mask last f.toList := by
  cases f with
  | none => exact ⟨hmem, rfl⟩
  | some f =>
    have hself : (IFetchCallback.callIfNewLine (ι := ι) ⟨k, mask, last⟩ hwc f) =
        (⟨k, mask, f.va &&& mask⟩, (filterLines mask last [f]).map (.iFetch k hwc ·)) := by
      rw [IFetchCallback.callIfNewLine, filterLines, filterLines, filterLines]
      by_cases hline : f.va &&& mask = last
      · simp [hline]
      · simp [hline]
    obtain ⟨before, after, rfl⟩ := List.append_of_mem hmem
    rw [List.map_append, List.map_cons, List.count_append, List.count_cons_self] at hcount
    have hbefore : k ∉ before.map IFetchCallback.cbk := by
      rw [← List.count_eq_zero]
      omega
    have hafter : k ∉ after.map IFetchCallback.cbk := by
      rw [← List.count_eq_zero]
      omega
    have hbefore := noteIFetch_of_notMem (ι := ι) hbefore hwc (some f)
    have hafter := noteIFetch_of_notMem (ι := ι) hafter hwc (some f)
    rw [noteIFetch, callIFetchCallbacks] at hbefore hafter ⊢
    refine ⟨?_, ?_⟩
    · refine List.mem_map.mpr ⟨⟨k, mask, last⟩, hmem, ?_⟩
      rw [hself]
      rfl
    · rw [List.flatMap_append, List.flatMap_cons, List.filterMap_append, List.filterMap_append,
        hbefore, hafter, hself, List.nil_append, List.append_nil, List.filterMap_map]
      exact (List.filterMap_congr fun f _ => if_pos ⟨rfl, rfl⟩).trans List.filterMap_some

omit [DecidableEq η] [DecidableEq κ] in
theorem mem_instrCalls {m : Manager η κ} {w : Hwc η κ} {info : Info ι} {c : Call η κ ι}
    (h : c ∈ m.instrCalls w info) : ∃ cbk aInst, c = .instr cbk w.hwc aInst := by
  obtain ⟨aInst, -, hc⟩ := List.mem_flatMap.mp h
  rcases List.mem_append.mp hc with hc | hc <;>
  · obtain ⟨cbk, -, rfl⟩ := List.mem_map.mp hc
    exact ⟨_, _, rfl⟩

omit [DecidableEq η] [DecidableEq κ] in
theorem mem_dataCalls {m : Manager η κ} {w : Hwc η κ} {info : Info ι} {c : Call η κ ι}
    (h : c ∈ m.dataCalls w info) : ∃ cbk wData, c = .data cbk w.hwc wData := by
  obtain ⟨wData, -, hc⟩ := List.mem_flatMap.mp h
  rcases List.mem_append.mp hc with hc | hc <;>
  · obtain ⟨cbk, -, rfl⟩ := List.mem_map.mp hc
    exact ⟨_, _, rfl⟩

omit [DecidableEq η] [DecidableEq κ] in
theorem mem_noteIFetch {cbkList : List (IFetchCallback κ)} {hwc : η} {f : Option Fetch}
    {c : Call η κ ι} (h : c ∈ (noteIFetch cbkList hwc f).2) : ∃ cbk f, c = .iFetch cbk hwc f := by
  cases f with
  | none => cases h
  | some f =>
    obtain ⟨cbk, -, hc⟩ := List.mem_flatMap.mp h
    rw [IFetchCallback.callIfNewLine] at hc
    split_ifs at hc
    · exact ⟨_, _, List.mem_singleton.mp hc⟩
    · cases hc

theorem recordsOf_append (h : η) (records records' : List (η × Info ι)) :
    recordsOf h (records ++ records') = recordsOf h records ++ recordsOf h records' :=
  List.filterMap_append

theorem fetchesOf_append (h : η) (records records' : List (η × Info ι)) :
    fetchesOf h (records ++ records') = fetchesOf h records ++ fetchesOf h records' := by
  rw [fetchesOf, recordsOf_append, List.filterMap_append]
  rfl

theorem recordsOf_singleton_self (h : η) (info : Info ι) : recordsOf h [(h, info)] = [info] := by
  simp [recordsOf]

theorem recordsOf_singleton_ne {h h' : η} (hne : h' ≠ h) (info : Info ι) :
    recordsOf h [(h', info)] = [] := by
  simp [recordsOf, hne]

/-- What the callbacks see of some records while the manager goes from one state to another. -/
structure Handled (regs : List (Registration η κ)) (m m' : Manager η κ)
    (records : List (η × Info ι)) (log : List (Call η κ ι)) : Prop where
  serves : Serves m' regs
  data : ∀ k h, log.filterMap (Call.dataFor k h) = (recordsOf h records).flatMap fun info =>
    info.dataRefs.flatMap (List.replicate (timesFor Registration.dataCbk k h regs))
  instrs : ∀ k h, log.filterMap (Call.instrFor k h) = (recordsOf h records).flatMap fun info =>
    info.ctrlTransfer.toList.flatMap (List.replicate (timesFor Registration.instrCbk k h regs))
  fetches : ∀ k h lineBytes mask last, .iFetch k (some h) lineBytes ∈ regs →
    timesFor Registration.fetchCbk k h regs = 1 → Tracks m k h mask last →
      Tracks m' k h mask (lastLine mask last (fetchesOf h records)) ∧
        log.filterMap (Call.fetchFor k h) = filterLines mask last (fetchesOf h records)

theorem Handled.append {regs : List (Registration η κ)} {m m₁ m₂ : Manager η κ}
    {records records' : List (η × Info ι)} {log log' : List (Call η κ ι)}
    (h : Handled regs m m₁ records log) (h' : Handled regs m₁ m₂ records' log') :
    Handled regs m m₂ (records ++ records') (log ++ log') where
  serves := h'.serves
  data k hwc := by
    rw [List.filterMap_append, recordsOf_append, List.flatMap_append, h.data, h'.data]
  instrs k hwc := by
    rw [List.filterMap_append, recordsOf_append, List.flatMap_append, h.instrs, h'.instrs]
  fetches k hwc lineBytes mask last hr hone htracks := by
    obtain ⟨htracks, hlog⟩ := h.fetches k hwc lineBytes mask last hr hone htracks
    obtain ⟨htracks, hlog'⟩ := h'.fetches k hwc lineBytes mask _ hr hone htracks
    rw [fetchesOf_append, lastLine_append, filterLines_append, List.filterMap_append, hlog, hlog']
    exact ⟨htracks, rfl⟩

/-- Calls of other kinds. -/
theorem Serves.handled {regs : List (Registration η κ)} {m : Manager η κ} (h : Serves m regs)
    {log : List (Call η κ ι)} (hlog : ∀ c ∈ log, ∀ k hwc,
      c.dataFor k hwc = none ∧ c.instrFor k hwc = none ∧ c.fetchFor k hwc = none) :
    Handled regs m m [] log where
  serves := h
  data k hwc := List.filterMap_eq_nil_iff.mpr fun c hc => (hlog c hc k hwc).1
  instrs k hwc := List.filterMap_eq_nil_iff.mpr fun c hc => (hlog c hc k hwc).2.1
  fetches k hwc _ _ _ _ _ htracks :=
    ⟨htracks, List.filterMap_eq_nil_iff.mpr fun c hc => (hlog c hc k hwc).2.2⟩

theorem Serves.filterMap_dataCalls {regs : List (Registration η κ)} {m : Manager η κ}
    (h : Serves m regs) {w : Hwc η κ} (hw : w ∈ m.hwcs) (k : κ) (info : Info ι) :
    (m.dataCalls w info).filterMap (Call.dataFor k w.hwc) =
      info.dataRefs.flatMap (List.replicate (timesFor Registration.dataCbk k w.hwc regs)) := by
  rw [Manager.dataCalls]
  induction info.dataRefs with
  | nil => rfl
  | cons wData refs ih =>
    have hcall : ∀ cbk, Call.dataFor k w.hwc (.data cbk w.hwc wData : Call η κ ι) =
        if cbk = k then some wData else none := by
      simp [Call.dataFor]
    rw [List.flatMap_cons, List.filterMap_append, List.filterMap_append, ih, List.flatMap_cons,
      callDataCallbacks, callDataCallbacks, filterMap_callbacks _ hcall,
      filterMap_callbacks _ hcall, List.replicate_append_replicate, h.data, h.dataFor w hw,
      count_listFor]

theorem Serves.filterMap_instrCalls {regs : List (Registration η κ)} {m : Manager η κ}
    (h : Serves m regs) {w : Hwc η κ} (hw : w ∈ m.hwcs) (k : κ) (info : Info ι) :
    (m.instrCalls w info).filterMap (Call.instrFor k w.hwc) = info.ctrlTransfer.toList.flatMap
      (List.replicate (timesFor Registration.instrCbk k w.hwc regs)) := by
  rw [Manager.instrCalls]
  induction info.ctrlTransfer.toList with
  | nil => rfl
  | cons aInst _ ih =>
    have hcall : ∀ cbk, Call.instrFor k w.hwc (.instr cbk w.hwc aInst : Call η κ ι) =
        if cbk = k then some aInst else none := by
      simp [Call.instrFor]
    rw [List.flatMap_cons, List.filterMap_append, List.filterMap_append, ih, List.flatMap_cons,
      callInstrCallbacks, callInstrCallbacks, filterMap_callbacks _ hcall,
      filterMap_callbacks _ hcall, List.replicate_append_replicate, h.instrs, h.instrsFor w hw,
      count_listFor]

omit [DecidableEq κ] in
/-- A record changes no list of callbacks. -/
theorem Serves.dispatch {regs : List (Registration η κ)} {m : Manager η κ} (h : Serves m regs)
    (i : ℕ) (info : Info ι) :
    Serves (m.dispatch i info).1 regs := by
  rw [Manager.dispatch]
  cases hi : m.hwcs[i]? with
  | none => exact h
  | some w =>
    have hw : w ∈ m.hwcs := List.mem_of_getElem? hi
    have hnames : ∀ cbkList, (m.hwcs.set i (w.count info cbkList)).map Hwc.hwc =
        m.hwcs.map Hwc.hwc := by
      refine fun cbkList => List.ext_getElem? fun j => ?_
      rw [List.map_set, List.getElem?_set, List.getElem?_map]
      split_ifs with hji hlt
      · rw [← hji, hi]
        rfl
      · rw [← hji, List.getElem?_eq_none (by simpa using hlt), Option.map_none]
      · rfl
    have hall : ∀ {p : Hwc η κ → Prop} {w' : Hwc η κ}, (∀ v ∈ m.hwcs, p v) → p w' →
        ∀ v ∈ m.hwcs.set i w', p v := by
      intro p w' hold hown v hv
      rcases List.mem_or_eq_of_mem_set hv with hv | rfl
      · exact hold v hv
      · exact hown
    refine ⟨?_, h.data, ?_, ?_, ?_, h.instrs, ?_⟩
    · exact (hnames _).trans h.contexts
    · exact hall h.dataFor (h.dataFor w hw)
    · exact (map_cbk_noteIFetch _ _ _).trans h.fetches
    · exact hall h.fetchesFor ((map_cbk_noteIFetch _ _ _).trans (h.fetchesFor w hw))
    · exact hall h.instrsFor (h.instrsFor w hw)

/-- A record is handled. -/
theorem Serves.handled_dispatch {regs : List (Registration η κ)} {m : Manager η κ}
    (h : Serves m regs) (hctx : (regs.filterMap Registration.context).Nodup) {i : ℕ} {w : Hwc η κ}
    (hi : m.hwcs[i]? = some w) (info : Info ι) :
    Handled regs m (m.dispatch i info).1 [(w.hwc, info)] (m.dispatch i info).2 := by
  have hw : w ∈ m.hwcs := List.mem_of_getElem? hi
  have hserves := h.dispatch i info
  rw [Manager.dispatch, hi] at hserves ⊢
  refine ⟨hserves, fun k hwc => ?_, fun k hwc => ?_,
    fun k hwc lineBytes mask last hr hone htracks => ?_⟩
  · have hinstr : (m.instrCalls w info).filterMap (Call.dataFor k hwc) = [] := by
      refine List.filterMap_eq_nil_iff.mpr fun c hc => ?_
      obtain ⟨_, _, rfl⟩ := mem_instrCalls hc
      rfl
    have hfetch : ∀ cbkList : List (IFetchCallback κ),
        (noteIFetch cbkList w.hwc info.iFetch).2.filterMap (Call.dataFor (ι := ι) k hwc) = [] := by
      refine fun cbkList => List.filterMap_eq_nil_iff.mpr fun c hc => ?_
      obtain ⟨_, _, rfl⟩ := mem_noteIFetch hc
      rfl
    rw [List.filterMap_append, List.filterMap_append, List.filterMap_append, hinstr, hfetch, hfetch,
      List.nil_append, List.nil_append, List.nil_append]
    by_cases hwc' : w.hwc = hwc
    · subst hwc'
      rw [h.filterMap_dataCalls hw, recordsOf_singleton_self, List.flatMap_singleton]
    · rw [recordsOf_singleton_ne hwc', List.flatMap_nil]
      refine List.filterMap_eq_nil_iff.mpr fun c hc => ?_
      obtain ⟨_, _, rfl⟩ := mem_dataCalls hc
      exact if_neg fun hboth => hwc' hboth.2
  · have hdata : (m.dataCalls w info).filterMap (Call.instrFor k hwc) = [] := by
      refine List.filterMap_eq_nil_iff.mpr fun c hc => ?_
      obtain ⟨_, _, rfl⟩ := mem_dataCalls hc
      rfl
    have hfetch : ∀ cbkList : List (IFetchCallback κ),
        (noteIFetch cbkList w.hwc info.iFetch).2.filterMap (Call.instrFor (ι := ι) k hwc) = [] := by
      refine fun cbkList => List.filterMap_eq_nil_iff.mpr fun c hc => ?_
      obtain ⟨_, _, rfl⟩ := mem_noteIFetch hc
      rfl
    rw [List.filterMap_append, List.filterMap_append, List.filterMap_append, hdata, hfetch, hfetch,
      List.append_nil, List.append_nil, List.append_nil]
    by_cases hwc' : w.hwc = hwc
    · subst hwc'
      rw [h.filterMap_instrCalls hw, recordsOf_singleton_self, List.flatMap_singleton]
    · rw [recordsOf_singleton_ne hwc', List.flatMap_nil]
      refine List.filterMap_eq_nil_iff.mpr fun c hc => ?_
      obtain ⟨_, _, rfl⟩ := mem_instrCalls hc
      exact if_neg fun hboth => hwc' hboth.2
  · have hinstr : (m.instrCalls w info).filterMap (Call.fetchFor k hwc) = [] := by
      refine List.filterMap_eq_nil_iff.mpr fun c hc => ?_
      obtain ⟨_, _, rfl⟩ := mem_instrCalls hc
      rfl
    have hdata : (m.dataCalls w info).filterMap (Call.fetchFor k hwc) = [] := by
      refine List.filterMap_eq_nil_iff.mpr fun c hc => ?_
      obtain ⟨_, _, rfl⟩ := mem_dataCalls hc
      rfl
    rw [List.filterMap_append, List.filterMap_append, List.filterMap_append, hinstr, hdata,
      List.nil_append, List.append_nil]
    obtain ⟨-, hin, hothers⟩ := mem_set_hwcs (h.contexts ▸ hctx) hi _
    obtain ⟨v, hv, rfl, hmem⟩ := htracks
    by_cases hvw : v.hwc = w.hwc
    · obtain rfl : v = w := List.inj_on_of_nodup_map (h.contexts ▸ hctx) hv hw hvw
      -- the callback is in the list of the context, so it is not in the global one
      have hown : 0 < (v.ifetchCallbacks.map IFetchCallback.cbk).count k :=
        List.count_pos_iff.mpr (List.mem_map.mpr ⟨_, hmem, rfl⟩)
      have hsum := count_listFor Registration.fetchCbk k v.hwc regs
      rw [← h.fetches, ← h.fetchesFor v hv, hone] at hsum
      have hglobal : k ∉ m.globalIFetchCallbacks.map IFetchCallback.cbk := by
        rw [← List.count_eq_zero]
        omega
      have hfetches : fetchesOf v.hwc [(v.hwc, info)] = info.iFetch.toList := by
        rw [fetchesOf, recordsOf_singleton_self]
        cases hf : info.iFetch <;> simp [hf]
      obtain ⟨hlast, hlog⟩ := noteIFetch_of_mem (ι := ι) (by omega) hmem v.hwc info.iFetch
      rw [hfetches, noteIFetch_of_notMem hglobal, List.nil_append]
      exact ⟨⟨_, hin, rfl, hlast⟩, hlog⟩
    · have hfetches : fetchesOf v.hwc [(w.hwc, info)] = [] := by
        rw [fetchesOf, recordsOf_singleton_ne (Ne.symm hvw), List.filterMap_nil]
      have hother : ∀ cbkList : List (IFetchCallback κ), (noteIFetch cbkList w.hwc
          info.iFetch).2.filterMap (Call.fetchFor (ι := ι) k v.hwc) = [] := by
        refine fun cbkList => List.filterMap_eq_nil_iff.mpr fun c hc => ?_
        obtain ⟨_, _, rfl⟩ := mem_noteIFetch hc
        exact if_neg fun hboth => hvw hboth.2.symm
      rw [hfetches, hother, hother]
      exact ⟨⟨v, hothers v hv hvw, rfl, hmem⟩, rfl⟩

/-! ### Turns -/

/-- A turn over some of the contexts. -/
theorem Handled.turn {regs : List (Registration η κ)} {m : Manager η κ}
    (hctx : (regs.filterMap Registration.context).Nodup) (r : Manager.Round ι) {is : List ℕ}
    (his : ∀ i ∈ is, i < (regs.filterMap Registration.context).length)
    {s : Manager η κ × List (Call η κ ι) × Bool} {records records' : List (η × Info ι)}
    (hs : Handled regs m s.1 records s.2.1) (hmore : s.2.2 = !records.isEmpty)
    (hrecords' : records' = records ++ is.filterMap fun i =>
      (r i).bind fun info => (regs.filterMap Registration.context)[i]?.map (·, info)) :
    Handled regs m (is.foldl (Manager.ask r true) s).1 records'
        (is.foldl (Manager.ask r true) s).2.1 ∧
      (is.foldl (Manager.ask r true) s).2.2 = !records'.isEmpty := by
  induction is generalizing s records with
  | nil =>
    rw [List.filterMap_nil, List.append_nil] at hrecords'
    exact hrecords' ▸ ⟨hs, hmore⟩
  | cons i is ih =>
    have hi : i < (regs.filterMap Registration.context).length := his i List.mem_cons_self
    have his : ∀ j ∈ is, j < (regs.filterMap Registration.context).length :=
      fun j hj => his j (List.mem_cons_of_mem i hj)
    rw [List.filterMap_cons] at hrecords'
    rw [List.foldl_cons, Manager.ask]
    cases hr : r i with
    | none =>
      rw [hr] at hrecords'
      exact ih his hs hmore hrecords'
    | some info =>
      obtain ⟨w, hw⟩ : ∃ w, s.1.hwcs[i]? = some w := by
        rw [← hs.serves.contexts, List.length_map] at hi
        exact ⟨_, List.getElem?_eq_getElem hi⟩
      have hname : (regs.filterMap Registration.context)[i]? = some w.hwc := by
        rw [← hs.serves.contexts, List.getElem?_map, hw, Option.map_some]
      rw [hr, Option.bind_some, hname, Option.map_some] at hrecords'
      refine ih his (hs.append (hs.serves.handled_dispatch hctx hw info)) ?_ ?_
      · simp
      · rw [hrecords', List.append_assoc, List.singleton_append]

theorem Serves.handled_round {regs : List (Registration η κ)} {m : Manager η κ}
    (h : Serves m regs) (hctx : (regs.filterMap Registration.context).Nodup) (r : Manager.Round ι) :
    Handled regs m (m.round r true).1 (delivered (regs.filterMap Registration.context) r)
        (m.round r true).2.1 ∧
      (m.round r true).2.2 = !(delivered (regs.filterMap Registration.context) r).isEmpty := by
  have hlength : m.hwcs.length = (regs.filterMap Registration.context).length := by
    rw [← h.contexts, List.length_map]
  have hstart : Handled regs m m [] ([] : List (Call η κ ι)) := h.handled fun _ hc => nomatch hc
  rw [Manager.round, delivered, hlength]
  exact hstart.turn (s := (m, [], false)) hctx r (fun i hi => List.mem_range.mp hi) rfl
    (List.nil_append _).symm

theorem Serves.handled_rounds {regs : List (Registration η κ)} {m : Manager η κ}
    (h : Serves m regs) (hctx : (regs.filterMap Registration.context).Nodup)
    (rs : List (Manager.Round ι)) :
    Handled regs m (m.rounds true rs).1 (deliveredBy (regs.filterMap Registration.context) rs)
      (m.rounds true rs).2 := by
  induction rs generalizing m with
  | nil => exact h.handled fun _ hc => nomatch hc
  | cons r rs ih =>
    obtain ⟨hround, hmore⟩ := h.handled_round hctx r
    rw [Manager.rounds]
    generalize m.round r true = turn at hround hmore
    obtain ⟨m₁, calls, more⟩ := turn
    cases more with
    | false =>
      have hnone : delivered (regs.filterMap Registration.context) r = [] := by
        simpa using hmore.symm
      rw [deliveredBy, List.takeWhile_cons_of_neg (by simp [hnone]), List.flatMap_nil]
      rwa [hnone] at hround
    | true =>
      have hticks : Handled regs m₁ m₁ []
          (m₁.globalTickCallbacks.map Call.tick : List (Call η κ ι)) := by
        refine hround.serves.handled fun c hc k hwc => ?_
        obtain ⟨cbk, -, rfl⟩ := List.mem_map.mp hc
        exact ⟨rfl, rfl, rfl⟩
      rw [deliveredBy, List.takeWhile_cons_of_pos (by simpa using hmore.symm), List.flatMap_cons]
      have hturn := (hround.append hticks).append (ih hround.serves)
      rwa [List.append_nil] at hturn

theorem Serves.handled_doWarmUp {regs : List (Registration η κ)} {m : Manager η κ}
    (h : Serves m regs) (hctx : (regs.filterMap Registration.context).Nodup)
    (rs : List (Manager.Round ι)) :
    Handled regs m (m.doWarmUp true rs).1 (deliveredBy (regs.filterMap Registration.context) rs)
      (m.doWarmUp true rs).2 := by
  have hrounds := h.handled_rounds hctx rs
  have hclients : Handled regs m m [] ((m.hwcs.map fun w => Call.clientInfo w.hwc
      (true && m.nDataCallbacks ≠ 0) (true && m.nIFetchCallbacks ≠ 0)
      (true && m.nInstrCallbacks ≠ 0)) : List (Call η κ ι)) := by
    refine h.handled fun c hc k hwc => ?_
    obtain ⟨w, -, rfl⟩ := List.mem_map.mp hc
    exact ⟨rfl, rfl, rfl⟩
  have hphases : ∀ {m₁ : Manager η κ}, Serves m₁ regs → ∀ isStart, Handled regs m₁ m₁ []
      (m.globalPhaseCallbacks.map (Call.phase · isStart) : List (Call η κ ι)) := by
    refine fun h₁ isStart => h₁.handled fun c hc k hwc => ?_
    obtain ⟨cbk, -, rfl⟩ := List.mem_map.mp hc
    exact ⟨rfl, rfl, rfl⟩
  have hall := ((hclients.append (hphases h true)).append hrounds).append
    (hphases hrounds.serves false)
  rwa [List.nil_append, List.nil_append, List.append_nil] at hall

theorem Serves.handled_doWarmUps {regs : List (Registration η κ)} {m : Manager η κ}
    (h : Serves m regs) (hctx : (regs.filterMap Registration.context).Nodup)
    (runs : List (List (Manager.Round ι))) :
    Handled regs m (m.doWarmUps true runs).1
      (runs.flatMap (deliveredBy (regs.filterMap Registration.context)))
      (m.doWarmUps true runs).2 := by
  induction runs generalizing m with
  | nil => exact h.handled fun _ hc => nomatch hc
  | cons rs runs ih =>
    have hfirst := h.handled_doWarmUp hctx rs
    exact hfirst.append (ih hfirst.serves)

end

/-! ### Lines -/

/-- The mask of a line clears the offset in it. -/
theorem clearsBelow_lineMaskOf {lineBytes : BitVec 32}
    (h : lineBytes &&& (lineBytes - 1) = 0 ∧ lineBytes ≠ 0) :
    ∃ k, lineBytes.toNat = 2 ^ k ∧ ClearsBelow k (IFetchCallback.lineMaskOf lineBytes) := by
  obtain ⟨hand, hne⟩ := h
  have hpos : lineBytes.toNat ≠ 0 := fun hzero => hne (BitVec.eq_of_toNat_eq hzero)
  have hle : (1 : BitVec 32) ≤ lineBytes := by
    rw [BitVec.le_def]
    exact Nat.one_le_iff_ne_zero.mpr hpos
  have hsub : (lineBytes - 1).toNat = lineBytes.toNat - 1 := BitVec.toNat_sub_of_le hle
  have hpow : lineBytes.toNat.isPowerOfTwo := by
    refine (Nat.ne_zero_and_sub_one_eq_zero_iff_isPowerOfTwo).mp ⟨hpos, ?_⟩
    rw [← hsub, ← BitVec.toNat_and, hand]
    rfl
  obtain ⟨k, hk⟩ := hpow
  have hwide : (lineBytes.setWidth 64).toNat = 2 ^ k := by
    rw [BitVec.toNat_setWidth, Nat.mod_eq_of_lt (lineBytes.isLt.trans (by decide)), hk]
  have hsubWide : (lineBytes - 1).setWidth 64 = lineBytes.setWidth 64 - 1 := by
    refine BitVec.eq_of_toNat_eq ?_
    have hleWide : (1 : BitVec 64) ≤ lineBytes.setWidth 64 := by
      rw [BitVec.le_def, hwide, ← hk]
      exact Nat.one_le_iff_ne_zero.mpr hpos
    rw [BitVec.toNat_sub_of_le hleWide, hwide, BitVec.toNat_setWidth, hsub, hk]
    exact Nat.mod_eq_of_lt (by have := lineBytes.isLt; omega)
  refine ⟨k, hk, ?_⟩
  rw [IFetchCallback.lineMaskOf, hsubWide]
  exact ClearsBelow.not_sub_one hwide

/-- The filter of a callback finds the new lines, but it starts as if the line at address 0 had
been fetched last. -/
theorem filterLines_eq_newLines {lineBytes : BitVec 32}
    (h : lineBytes &&& (lineBytes - 1) = 0 ∧ lineBytes ≠ 0) (last : Addr) (fs : List Fetch) :
    filterLines (IFetchCallback.lineMaskOf lineBytes) last fs =
      newLines lineBytes.toNat (some last.toNat) fs := by
  obtain ⟨k, hk, hmask⟩ := clearsBelow_lineMaskOf h
  have hline : ∀ f : Fetch, (f.va &&& IFetchCallback.lineMaskOf lineBytes).toNat =
      lineOf lineBytes.toNat f := by
    intro f
    rw [hmask.toNat_and, lineOf, hk]
  induction fs generalizing last with
  | nil => rfl
  | cons f fs ih =>
    rw [filterLines, newLines, ← hline]
    by_cases hlast : f.va &&& IFetchCallback.lineMaskOf lineBytes = last
    · rw [if_neg (not_not_intro hlast), if_pos (by rw [hlast]), ih]
    · have hne : some last.toNat ≠
          some (f.va &&& IFetchCallback.lineMaskOf lineBytes).toNat :=
        fun heq => hlast (BitVec.eq_of_toNat_eq (Option.some.inj heq)).symm
      rw [if_pos hlast, if_neg hne, ih]

theorem newLines_some_zero_iff {lineBytes : ℕ} (hpos : 0 < lineBytes) (fs : List Fetch) :
    newLines lineBytes (some 0) fs = newLines lineBytes none fs ↔
      ∀ f, fs.head? = some f → lineBytes ≤ f.va.toNat := by
  cases fs with
  | nil => simp [newLines]
  | cons f fs =>
    have hzero : 0 = lineOf lineBytes f ↔ f.va.toNat < lineBytes := by
      rw [lineOf, eq_comm, Nat.mul_eq_zero, Nat.div_eq_zero_iff]
      omega
    have hnone : newLines lineBytes none (f :: fs) =
        f :: newLines lineBytes (some (lineOf lineBytes f)) fs :=
      if_neg (Option.some_ne_none _).symm
    rw [hnone, newLines, List.head?_cons]
    by_cases hlt : f.va.toNat < lineBytes
    · have hline := hzero.mpr hlt
      rw [if_pos (congrArg some hline), ← hline]
      refine iff_of_false (fun heq => ?_) fun hall => ?_
      · exact List.cons_ne_self _ _ heq.symm
      · exact (hall f rfl).not_gt hlt
    · have hne : ¬some 0 = some (lineOf lineBytes f) :=
        fun heq => hlt (hzero.mp (Option.some.inj heq))
      rw [if_neg hne]
      refine iff_of_true rfl ?_
      rintro _ ⟨⟩
      exact not_lt.mp hlt

section
variable [DecidableEq η] [DecidableEq κ]

/-- The callbacks are called as they should be, unless the first fetch of a context with a callback
of its own lies in the first line of the memory. -/
theorem doWarmUps_dispatches_iff {regs : List (Registration η κ)}
    (hctx : (regs.filterMap Registration.context).Nodup)
    {m : Manager η κ} (hm : regs.foldlM Manager.register Manager.empty = some m)
    (runs : List (List (Manager.Round ι))) :
    Dispatches regs (runs.flatMap (deliveredBy (regs.filterMap Registration.context)))
        (m.doWarmUps true runs).2 ↔
      ∀ k h lineBytes, .iFetch k (some h) lineBytes ∈ regs →
        timesFor Registration.fetchCbk k h regs = 1 → ∀ f,
        (fetchesOf h (runs.flatMap (deliveredBy (regs.filterMap Registration.context)))).head? =
          some f → lineBytes.toNat ≤ f.va.toNat := by
  have hregistered := registered_of_foldlM hctx hm
  have hhandled := hregistered.serves.handled_doWarmUps hctx runs
  generalize runs.flatMap (deliveredBy (regs.filterMap Registration.context)) = records at *
  have hlog : ∀ k h lineBytes, .iFetch k (some h) lineBytes ∈ regs →
      timesFor Registration.fetchCbk k h regs = 1 →
      ((m.doWarmUps true runs).2.filterMap (Call.fetchFor k h) =
          newLines lineBytes.toNat none (fetchesOf h records) ↔
        ∀ f, (fetchesOf h records).head? = some f → lineBytes.toNat ≤ f.va.toNat) := by
    intro k h lineBytes hr hone
    have hpow := hregistered.lineBytes k (some h) lineBytes hr
    have hpos : 0 < lineBytes.toNat :=
      Nat.pos_of_ne_zero fun hzero => hpow.2 (BitVec.eq_of_toNat_eq hzero)
    obtain ⟨-, hfetches⟩ := hhandled.fetches k h lineBytes _ 0 hr hone
      (hregistered.tracks k h lineBytes hr)
    rw [hfetches, filterLines_eq_newLines hpow, ← newLines_some_zero_iff hpos]
    rfl
  constructor
  · exact fun h k hwc lineBytes hr hone =>
      (hlog k hwc lineBytes hr hone).mp (h.fetches k hwc lineBytes hr hone)
  · exact fun h => ⟨hhandled.data, hhandled.instrs, fun k hwc lineBytes hr hone =>
      (hlog k hwc lineBytes hr hone).mpr (h k hwc lineBytes hr hone)⟩

end

/-- One context with callbacks of each kind. -/
def oneContext : List (Registration ℕ ℕ) :=
  [.hwc 0, .data 1 none, .iFetch 2 (some 0) 64, .instrs 3 (some 0)]

/-- A jump that loads its target. -/
def jumpAt (va : Addr) : Info ℕ where
  aInst := some 7
  iFetch := some ⟨va, va⟩
  loads := [⟨0x8000, 0x8000, 8⟩]
  stores := []
  isCtrlTransfer := true
  isValid _ := rfl

/-- Two calls of `DoWarmUp` with a jump each. -/
def twoJumps : List (List (Manager.Round ℕ)) :=
  [[fun _ => some (jumpAt 0x1000)], [fun _ => some (jumpAt 0x1004)]]

theorem doWarmUps_dispatches_jump : ∃ m : Manager ℕ ℕ,
    oneContext.foldlM Manager.register Manager.empty = some m ∧
      Dispatches oneContext
        (twoJumps.flatMap (deliveredBy (oneContext.filterMap Registration.context)))
        (m.doWarmUps true twoJumps).2 := by
  refine ⟨_, rfl, (doWarmUps_dispatches_iff (by decide) rfl _).mpr ?_⟩
  intro k hwc lineBytes hr _ f hf
  simp only [oneContext, List.mem_cons, reduceCtorEq, Registration.iFetch.injEq, List.not_mem_nil,
    or_false, false_or] at hr
  obtain ⟨-, ⟨⟩, rfl⟩ := hr
  obtain rfl : (⟨0x1000, 0x1000⟩ : Fetch) = f := Option.some.inj hf
  decide

/-- The first fetch of the context, from the first line, is not seen. -/
theorem not_dispatches_firstLine : ∃ m : Manager ℕ ℕ,
    oneContext.foldlM Manager.register Manager.empty = some m ∧
      ¬Dispatches oneContext ([[fun _ => some (jumpAt 0x20)]].flatMap
          (deliveredBy (oneContext.filterMap Registration.context)))
        (m.doWarmUps true [[fun _ => some (jumpAt 0x20)]]).2 := by
  refine ⟨_, rfl, fun h => ?_⟩
  have hmem : .iFetch 2 (some 0) 64 ∈ oneContext := by simp [oneContext]
  exact absurd (h.fetches 2 0 64 hmem (by decide)) (by decide)

end Awb.Warmup
