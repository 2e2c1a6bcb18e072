import Awb.Lib.Ring
import Awb.Lib.Runs

/-! The instructions of a TPU of the APE system: they are fetched into a circular buffer, and from
there committed or aborted. -/

namespace Awb.Systems

/-! ### The buffer -/

/-- `INST_BUF_CLASS`: a slot of `my_inst` without an instruction is `NULL`. -/
structure InstBuf (ι : Type) where
  myInst : ℕ → Option ι := fun _ => none
  myHead : ℕ := 0
  myTail : ℕ := 0
  myNumEntries : ℕ := 0

namespace InstBuf
variable {ι : Type} (maxInstBufSz : ℕ)

def nextIdx (idx : ℕ) : ℕ := (idx + 1) % maxInstBufSz

def isBufEmpty (b : InstBuf ι) : Bool := (b.myInst b.myHead).isNone

def isBufFull (b : InstBuf ι) : Bool := (b.myInst b.myTail).isSome

/-- The loop of `free_insts_and_reset`, with fuel: each round empties a slot. -/
def freeInsts : ℕ → (ℕ → Option ι) → ℕ → Option (ℕ → Option ι)
  | 0, _, _ => none
  | fuel + 1, myInst, i =>
    if (myInst i).isSome then
      freeInsts fuel (Function.update myInst i none) (nextIdx maxInstBufSz i)
    else some myInst

def freeInstsAndReset (b : InstBuf ι) : Option (InstBuf ι) :=
  (freeInsts maxInstBufSz (maxInstBufSz + 1) b.myInst b.myHead).map fun myInst =>
    { myInst := myInst, myHead := 0, myTail := 0, myNumEntries := 0 }

/-- `insert`, which asserts that the buffer is not full. -/
def insert (inst : ι) (b : InstBuf ι) : Option (InstBuf ι) :=
  if b.isBufFull then none
  else some { b with
    myInst := Function.update b.myInst b.myTail (some inst)
    myTail := nextIdx maxInstBufSz b.myTail
    myNumEntries := b.myNumEntries + 1 }

def removeHead (b : InstBuf ι) : Option ι × InstBuf ι :=
  if b.isBufEmpty then (none, b)
  else (b.myInst b.myHead, { b with
    myInst := Function.update b.myInst b.myHead none
    myHead := nextIdx maxInstBufSz b.myHead
    myNumEntries := b.myNumEntries - 1 })

/-- `removeHeadAndAbort`, which asserts that the buffer is not empty. -/
def removeHeadAndAbort (b : InstBuf ι) : Option (Option ι × InstBuf ι) :=
  if b.isBufEmpty then none
  else
    let (inst, b) := b.removeHead maxInstBufSz
    (b.freeInstsAndReset maxInstBufSz).map (inst, ·)

/-- The buffer holds some instructions in consecutive slots from `my_head` on, oldest first. -/
structure IsFifo (b : InstBuf ι) (insts : List ι) : Prop where
  holds : Ring.Holds maxInstBufSz b.myHead b.myInst insts
  tail : b.myTail = (b.myHead + insts.length) % maxInstBufSz
  numEntries : b.myNumEntries = insts.length

variable {maxInstBufSz} {b : InstBuf ι} {insts : List ι} {inst : ι}

theorem isFifo_new : IsFifo maxInstBufSz ({} : InstBuf ι) [] where
  holds := Ring.holds_empty maxInstBufSz
  tail := (Nat.zero_mod maxInstBufSz).symm
  numEntries := rfl

namespace IsFifo

theorem isBufEmpty_eq (h : IsFifo maxInstBufSz b insts) : b.isBufEmpty = insts.isEmpty := by
  rw [isBufEmpty, h.holds.slot_head]
  cases insts <;> rfl

/-- The entries are counted right. -/
theorem count (h : IsFifo maxInstBufSz b insts) :
    b.myNumEntries = maxInstBufSz.count fun i => (b.myInst i).isSome :=
  h.numEntries.trans h.holds.count.symm

theorem insert (h : IsFifo maxInstBufSz b insts) (hroom : insts.length < maxInstBufSz)
    (inst : ι) :
    ∃ b', b.insert maxInstBufSz inst = some b' ∧ IsFifo maxInstBufSz b' (insts ++ [inst]) := by
  have hfull : ¬ b.isBufFull = true := by
    rw [isBufFull, h.tail, h.holds.slot_tail]
    omega
  refine ⟨_, if_neg hfull, ?_, ?_, ?_⟩
  · rw [h.tail]
    exact h.holds.push hroom inst
  · rw [List.length_append, List.length_singleton, ← Nat.add_assoc, ← Nat.mod_add_mod, ← h.tail]
    rfl
  · rw [List.length_append, ← h.numEntries]
    rfl

theorem removeHead_nil (h : IsFifo maxInstBufSz b []) :
    b.removeHead maxInstBufSz = (none, b) := if_pos h.isBufEmpty_eq

theorem removeHead_cons (h : IsFifo maxInstBufSz b (inst :: insts)) :
    ∃ b', b.removeHead maxInstBufSz = (some inst, b') ∧ IsFifo maxInstBufSz b' insts := by
  have hempty : ¬ b.isBufEmpty = true := by
    rw [h.isBufEmpty_eq]
    exact Bool.false_ne_true
  refine ⟨_, (if_neg hempty).trans (congrArg (Prod.mk · _) h.holds.slot_head), h.holds.pop, ?_, ?_⟩
  · change b.myTail = ((b.myHead + 1) % maxInstBufSz + insts.length) % maxInstBufSz
    rw [h.tail, List.length_cons, Nat.mod_add_mod, Nat.add_assoc, Nat.add_comm 1]
  · rw [h.numEntries]
    rfl

/-- The loop runs from the head to the first empty slot. -/
theorem freeInsts {fuel head : ℕ} {myInst : ℕ → Option ι}
    (h : Ring.Holds maxInstBufSz head myInst insts) (hfuel : insts.length < fuel) :
    freeInsts maxInstBufSz fuel myInst head = some fun _ => none := by
  induction insts generalizing fuel head myInst with
  | nil =>
    obtain ⟨fuel, rfl⟩ := Nat.exists_eq_succ_of_ne_zero (Nat.ne_of_gt hfuel)
    rw [h.slot_eq_none]
    rfl
  | cons inst insts ih =>
    obtain ⟨fuel, rfl⟩ := Nat.exists_eq_succ_of_ne_zero (Nat.ne_of_gt (Nat.zero_lt_of_lt hfuel))
    rw [InstBuf.freeInsts, h.slot_head, List.head?_cons, Option.isSome_some, if_pos rfl]
    exact ih h.pop (Nat.lt_of_succ_lt_succ hfuel)

theorem removeHeadAndAbort (h : IsFifo maxInstBufSz b (inst :: insts)) :
    b.removeHeadAndAbort maxInstBufSz = some (some inst, {}) := by
  have hempty : ¬ b.isBufEmpty = true := by
    rw [h.isBufEmpty_eq]
    exact Bool.false_ne_true
  obtain ⟨b', hremove, hrest⟩ := h.removeHead_cons
  have hfree : InstBuf.freeInsts maxInstBufSz (maxInstBufSz + 1) b'.myInst b'.myHead =
      some fun _ => none := freeInsts hrest.holds (Nat.lt_succ_of_le hrest.holds.fits)
  have hreset : b'.freeInstsAndReset maxInstBufSz = some {} := by
    rw [freeInstsAndReset, hfree]
    rfl
  rw [InstBuf.removeHeadAndAbort, if_neg hempty, hremove]
  exact congrArg (Option.map fun buf => (some inst, buf)) hreset

end IsFifo

end InstBuf

/-! ### The instructions -/

/-- What is read of an instruction after it was executed. -/
structure InstInfo (α : Type) where
  isMemRead : Bool
  isMemWrite : Bool
  isNonSequentialPC : Bool
  hadFault : Bool
  isControlOp : Bool
  actualTarget : α
  nextVirtualPC : α

/-- An instruction; every fetch makes a new one, and its number tells it apart from the others. -/
structure Inst (α : Type) extends InstInfo α where
  serial : ℕ

/-- The part of `TPU_CLASS` that instructions go through, and how many were fetched. -/
structure TpuInsts (α : Type) where
  myPc : α
  myFirstUncommittedPc : α
  myInstBuf : InstBuf (Inst α) := {}
  fetched : ℕ := 0

/-- A fetch: the pc it was made at, and whether the instruction was killed at once. -/
structure Fetched (α : Type) where
  pc : α
  inst : Inst α
  killed : Bool

/-- What the hardware context and the feeder see of a call. In a commit they see each instruction,
and whether the feeder writes for it; in an abort the instruction that is killed, and the pc that
fetching goes back to. -/
inductive TpuEvent (α : Type)
  | fetch (f : Fetched α)
  | commit (insts : List (Inst α × Bool))
  | abort (inst : Option (Inst α)) (pc : α)

/-- The calls of a TPU: what comes of the fetched instruction, and the answer of `DoRead` to it. -/
inductive TpuCall (α : Type)
  | fetchAndExecute (info : InstInfo α) (doRead : Bool)
  | commit
  | abort

namespace TpuInsts
variable {α : Type} (maxInstBufSz : ℕ) (capable : Bool)

/-- A thread was scheduled, at its first pc. -/
def start (pc : α) : TpuInsts α where
  myPc := pc
  myFirstUncommittedPc := pc

/-- The pc behind an instruction. -/
def nextPc (info : InstInfo α) : α :=
  if info.isNonSequentialPC then info.actualTarget
  else if info.hadFault then info.nextVirtualPC
  else if info.isControlOp then info.actualTarget
  else info.nextVirtualPC

/-- `fetchAndExecute`; an instruction that the feeder does not read for is killed. -/
def fetchAndExecute (info : InstInfo α) (doRead : Bool) (t : TpuInsts α) :
    Option (TpuEvent α × TpuInsts α) :=
  let inst : Inst α := { info with serial := t.fetched }
  (t.myInstBuf.insert maxInstBufSz inst).map fun myInstBuf =>
    let t := { t with myInstBuf := myInstBuf, fetched := t.fetched + 1 }
    if info.isMemRead && capable && !doRead then (.fetch ⟨t.myPc, inst, true⟩, t)
    else (.fetch ⟨t.myPc, inst, false⟩, { t with myPc := nextPc info })

/-- The loop of `commit`, with fuel: each round removes an instruction. -/
def commitInsts : ℕ → InstBuf (Inst α) → Option (List (Inst α × Bool) × InstBuf (Inst α))
  | 0, _ => none
  | fuel + 1, b =>
    match b.removeHead maxInstBufSz with
    | (none, b) => some ([], b)
    | (some inst, b) => (commitInsts fuel b).map fun r =>
      ((inst, inst.isMemWrite && capable) :: r.1, r.2)

def commit (t : TpuInsts α) : Option (TpuEvent α × TpuInsts α) :=
  (commitInsts maxInstBufSz capable (maxInstBufSz + 1) t.myInstBuf).map fun r =>
    (.commit r.1, { t with myInstBuf := r.2, myFirstUncommittedPc := t.myPc })

def abort (t : TpuInsts α) : Option (TpuEvent α × TpuInsts α) :=
  (t.myInstBuf.removeHeadAndAbort maxInstBufSz).map fun r =>
    (.abort r.1 t.myFirstUncommittedPc,
      { t with myInstBuf := r.2, myPc := t.myFirstUncommittedPc })

/-- A call; `none` if an assertion fails. -/
def call (t : TpuInsts α) : TpuCall α → Option (TpuEvent α × TpuInsts α)
  | .fetchAndExecute info doRead => t.fetchAndExecute maxInstBufSz capable info doRead
  | .commit => t.commit maxInstBufSz capable
  | .abort => t.abort maxInstBufSz

end TpuInsts

end Awb.Systems
