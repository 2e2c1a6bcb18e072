import Awb.Classic.Schedule
import Awb.Lib.Runs

/-! The controller's scheduler loop as a labelled transition system. Commands arrive on
`ctrlWorkList` between any two steps of the loop, from the workbench and from the system. -/

namespace Awb.Classic

/-- Where `CMD_SchedulerLoop` stands. -/
inductive Phase
  | top
  | drain
  | ready
  | inform
  | exited
  deriving DecidableEq, Repr

/-- The members of `CONTROLLER_CLASS` the loop and the commands work on. -/
structure Controller where
  ctrlWorkList : WorkList := []
  schedule : Schedule := {}
  pmStopped : Bool := true
  pmExiting : Bool := false
  nextId : Nat := 0
  deriving DecidableEq, Repr

/-- A `CMD_` function puts a new work item on the controller work list; `CMD_Start` clears
`pmStopped` itself. -/
def Controller.command (ctl : Controller) (c : Command) : Controller :=
  { ctl with
    ctrlWorkList := ctl.ctrlWorkList.add (.new ctl.nextId c)
    pmStopped := if c.kind = .start then false else ctl.pmStopped
    nextId := ctl.nextId + 1 }

/-- The loop: `current` holds the counts read at its top, `system` those of the system. -/
structure LoopState extends Controller where
  phase : Phase := .top
  current : Counters
  system : Counters
  deriving DecidableEq, Repr

/-- The list a clearing progress command clears. -/
def WorkKind.clears : WorkKind → Option CounterKind
  | .progress .clearNanosecond _ => some .nanosecond
  | .progress .clearCycle _ => some .cycle
  | .progress .clearInst _ => some .inst
  | .progress .clearMacroInst _ => some .macroInst
  | .progress .clearPacket _ => some .packet
  | _ => none

/-- What became of an item whose `Schedule` method was called. -/
inductive Scheduled
  | placed (item : WorkItem)
  | cleared (k : CounterKind) (deleted : WorkList)
  deriving DecidableEq, Repr

/-- The virtual `Schedule` of a work item: clearing progress commands act here. -/
def WorkItem.schedule (item : WorkItem) (s : Schedule) (current : Counters) :
    Except Fault (Scheduled × Schedule) :=
  match item.kind.clears with
  | some k => .ok (.cleared k (s.list k).progressItems, s.clearProgress k)
  | none =>
    match s.schedule item current with
    | .ok (item', s') => .ok (.placed item', s')
    | .error f => .error f

/-- What a loop step did. -/
inductive Label
  | arrive (item : WorkItem)
  | sample
  | leave
  | drain (item : WorkItem) (result : Scheduled)
  | drained
  | process (item : WorkItem) (current : Counters) (rescheduled : Option Scheduled)
  | idle
  | wait
  | execute (limits executed : Counters)
  deriving DecidableEq, Repr

/-- The `CmdAction` of an item, as far as it changes the controller. -/
def LoopState.cmdAction (ctl : LoopState) (item : WorkItem) : LoopState :=
  match item.kind with
  | .start => { ctl with pmStopped := false }
  | .stop => { ctl with pmStopped := true }
  | .exit => { ctl with pmExiting := true }
  | _ => ctl

def LoopState.nextEvents (ctl : LoopState) : Except Fault Counters := do
  let nanosecond ← ctl.schedule.forNextEvent .nanosecond ctl.current.nanosecond
  let cycle ← ctl.schedule.forNextEvent .cycle ctl.current.cycle
  let inst ← ctl.schedule.forNextEvent .inst ctl.current.inst
  let packet ← ctl.schedule.forNextEvent .packet ctl.current.packet
  let macroInst ← ctl.schedule.forNextEvent .macroInst ctl.current.macroInst
  .ok { nanosecond, cycle, inst, macroInst, packet }

/-- `ASSERTX` before the system executes: the next events are not now. -/
def differs (limits current : Counters) : Bool :=
  limits.cycle ≠ current.cycle && limits.macroInst ≠ current.macroInst &&
    limits.inst ≠ current.inst && limits.packet ≠ current.packet &&
    limits.nanosecond ≠ current.nanosecond

/-- One step of `CMD_SchedulerLoop`; `executed` is what `SYS_Execute` leaves in the counters,
in the step that calls it. -/
def loopStep (ctl : LoopState) (executed : Counters) : Except Fault (Option (Label × LoopState)) :=
  match ctl.phase with
  | .top =>
    if ctl.pmExiting then .ok (some (.leave, { ctl with phase := .exited }))
    else .ok (some (.sample, { ctl with current := ctl.system, phase := .drain }))
  | .drain =>
    match ctl.ctrlWorkList with
    | [] => .ok (some (.drained, { ctl with phase := .ready }))
    | wItem :: rest =>
      match wItem.schedule ctl.schedule ctl.current with
      | .error f => .error f
      | .ok (r, s) => .ok (some (.drain wItem r, { ctl with ctrlWorkList := rest, schedule := s }))
  | .ready =>
    match ctl.schedule.readyEvent ctl.current with
    | .error f => .error f
    | .ok none => .ok (some (.idle, { ctl with phase := .inform }))
    | .ok (some (sItem, s)) =>
      let after := { ctl with schedule := s }.cmdAction sItem
      if sItem.trigger.isPeriod then
        match sItem.schedule after.schedule after.current with
        | .error f => .error f
        | .ok (r, s) => .ok (some (.process sItem ctl.current (some r),
            { after with schedule := s }))
      else .ok (some (.process sItem ctl.current none, after))
  | .inform =>
    if ctl.pmStopped || ctl.pmExiting then .ok (some (.wait, { ctl with phase := .top }))
    else
      match ctl.nextEvents with
      | .error f => .error f
      | .ok limits =>
        if differs limits ctl.current then
          .ok (some (.execute limits executed, { ctl with system := executed, phase := .top }))
        else .error .execute
  | .exited => .ok none

def LoopState.arrive (ctl : LoopState) (c : Command) : LoopState :=
  { ctl with toController := ctl.toController.command c }

/-- A command arrives, or the loop takes its next step. -/
inductive Step (ctl : LoopState) : Label → LoopState → Prop
  | arrive (c : Command) : Step ctl (.arrive (.new ctl.nextId c)) (ctl.arrive c)
  | loop {l : Label} {ctl' : LoopState} (executed : Counters) :
      loopStep ctl executed = .ok (some (l, ctl')) → Step ctl l ctl'

/-- The controller after construction, in front of a system with any counts. -/
def start (current system : Counters) : LoopState := { current, system }

@[simp] theorem cmdAction_schedule (ctl : LoopState) (item : WorkItem) :
    (ctl.cmdAction item).schedule = ctl.schedule := by
  unfold LoopState.cmdAction; split <;> rfl

@[simp] theorem cmdAction_ctrlWorkList (ctl : LoopState) (item : WorkItem) :
    (ctl.cmdAction item).ctrlWorkList = ctl.ctrlWorkList := by
  unfold LoopState.cmdAction; split <;> rfl

@[simp] theorem cmdAction_current (ctl : LoopState) (item : WorkItem) :
    (ctl.cmdAction item).current = ctl.current := by
  unfold LoopState.cmdAction; split <;> rfl

@[simp] theorem cmdAction_system (ctl : LoopState) (item : WorkItem) :
    (ctl.cmdAction item).system = ctl.system := by
  unfold LoopState.cmdAction; split <;> rfl

@[simp] theorem cmdAction_nextId (ctl : LoopState) (item : WorkItem) :
    (ctl.cmdAction item).nextId = ctl.nextId := by
  unfold LoopState.cmdAction; split <;> rfl

@[simp] theorem cmdAction_phase (ctl : LoopState) (item : WorkItem) :
    (ctl.cmdAction item).phase = ctl.phase := by
  unfold LoopState.cmdAction; split <;> rfl

/-- An item's `Schedule` clears a list, or places the item with its time set. -/
theorem WorkItem.schedule_ok {item : WorkItem} {s s' : Schedule} {current : Counters}
    {r : Scheduled} (h : item.schedule s current = .ok (r, s')) :
    (∃ k, item.kind.clears = some k ∧ r = .cleared k (s.list k).progressItems ∧
        s' = s.clearProgress k) ∨
      (∃ item', item.kind.clears = none ∧ r = .placed item' ∧
        s.schedule item current = .ok (item', s')) := by
  unfold WorkItem.schedule at h
  split at h
  · rename_i k hk
    simp only [Except.ok.injEq, Prod.mk.injEq] at h
    exact .inl ⟨k, hk, h.1.symm, h.2.symm⟩
  · rename_i hk
    split at h
    · rename_i item' s'' hs
      simp only [Except.ok.injEq, Prod.mk.injEq] at h
      exact .inr ⟨item', hk, h.1.symm, h.2 ▸ hs⟩
    · simp at h

/-- What a step does to the state, case by case. -/
inductive Move (ctl : LoopState) : Label → LoopState → Prop
  | arrive (c : Command) : Move ctl (.arrive (.new ctl.nextId c)) (ctl.arrive c)
  | sample : ctl.phase = .top → ctl.pmExiting = false →
      Move ctl .sample { ctl with current := ctl.system, phase := .drain }
  | leave : ctl.phase = .top → ctl.pmExiting = true → Move ctl .leave { ctl with phase := .exited }
  | drained : ctl.phase = .drain → ctl.ctrlWorkList = [] →
      Move ctl .drained { ctl with phase := .ready }
  | drain {item : WorkItem} {rest : WorkList} {r : Scheduled} {s : Schedule} :
      ctl.phase = .drain → ctl.ctrlWorkList = item :: rest →
      item.schedule ctl.schedule ctl.current = .ok (r, s) →
      Move ctl (.drain item r) { ctl with ctrlWorkList := rest, schedule := s }
  | process {item : WorkItem} {s : Schedule} :
      ctl.phase = .ready → ctl.schedule.readyEvent ctl.current = .ok (some (item, s)) →
      item.trigger.isPeriod = false →
      Move ctl (.process item ctl.current none) ({ ctl with schedule := s }.cmdAction item)
  | reprocess {item : WorkItem} {s s' : Schedule} {r : Scheduled} :
      ctl.phase = .ready → ctl.schedule.readyEvent ctl.current = .ok (some (item, s)) →
      item.trigger.isPeriod = true → item.schedule s ctl.current = .ok (r, s') →
      Move ctl (.process item ctl.current (some r))
        { { ctl with schedule := s }.cmdAction item with schedule := s' }
  | idle : ctl.phase = .ready → ctl.schedule.readyEvent ctl.current = .ok none →
      Move ctl .idle { ctl with phase := .inform }
  | wait : ctl.phase = .inform → (ctl.pmStopped || ctl.pmExiting) = true →
      Move ctl .wait { ctl with phase := .top }
  | execute {limits executed : Counters} :
      ctl.phase = .inform → (ctl.pmStopped || ctl.pmExiting) = false →
      ctl.nextEvents = .ok limits → differs limits ctl.current = true →
      Move ctl (.execute limits executed) { ctl with system := executed, phase := .top }

theorem Step.move {ctl ctl' : LoopState} {l : Label} (h : Step ctl l ctl') : Move ctl l ctl' := by
  cases h with
  | arrive c => exact .arrive c
  | loop executed h =>
    unfold loopStep at h
    split at h
    · rename_i hp
      split_ifs at h with hx
      · simp only [Except.ok.injEq, Option.some.injEq, Prod.mk.injEq] at h
        obtain ⟨rfl, rfl⟩ := h
        exact .leave hp hx
      · simp only [Except.ok.injEq, Option.some.injEq, Prod.mk.injEq] at h
        obtain ⟨rfl, rfl⟩ := h
        exact .sample hp (by simpa using hx)
    · rename_i hp
      split at h
      · rename_i hw
        simp only [Except.ok.injEq, Option.some.injEq, Prod.mk.injEq] at h
        obtain ⟨rfl, rfl⟩ := h
        exact .drained hp hw
      · rename_i item rest hw
        split at h
        · simp at h
        · rename_i r s hs
          simp only [Except.ok.injEq, Option.some.injEq, Prod.mk.injEq] at h
          obtain ⟨rfl, rfl⟩ := h
          exact .drain hp hw hs
    · rename_i hp
      split at h
      · simp at h
      · rename_i hr
        simp only [Except.ok.injEq, Option.some.injEq, Prod.mk.injEq] at h
        obtain ⟨rfl, rfl⟩ := h
        exact .idle hp hr
      · rename_i item s hr
        simp only at h
        split_ifs at h with ht
        · split at h
          · simp at h
          · rename_i r s' hs
            simp only [Except.ok.injEq, Option.some.injEq, Prod.mk.injEq] at h
            obtain ⟨rfl, rfl⟩ := h
            exact .reprocess hp hr ht (by simpa using hs)
        · simp only [Except.ok.injEq, Option.some.injEq, Prod.mk.injEq] at h
          obtain ⟨rfl, rfl⟩ := h
          exact .process hp hr (by simpa using ht)
    · rename_i hp
      split_ifs at h with hx
      · simp only [Except.ok.injEq, Option.some.injEq, Prod.mk.injEq] at h
        obtain ⟨rfl, rfl⟩ := h
        exact .wait hp hx
      · split at h
        · simp at h
        · rename_i limits hn
          split_ifs at h with hd
          simp only [Except.ok.injEq, Option.some.injEq, Prod.mk.injEq] at h
          obtain ⟨rfl, rfl⟩ := h
          exact .execute hp (by simpa using hx) hn hd
    · simp at h

theorem nextEvents_error {ctl : LoopState} {f : Fault} (h : ctl.nextEvents = .error f) :
    f = .nextEvent := by
  have key : ∀ k current f, ctl.schedule.forNextEvent k current = .error f → f = .nextEvent := by
    intro k current f h
    unfold Schedule.forNextEvent at h
    split at h
    · simp at h
    · split_ifs at h
      exact (Except.error.inj h).symm
  simp only [LoopState.nextEvents, bind, Except.bind] at h
  repeat' split at h
  case h_2 => simp at h
  all_goals
    rename_i h'
    exact key _ _ _ (Except.error.inj h ▸ h')

/-- Where a turn of the loop can fail: at scheduling, in `ReadyEvent`, or before it executes. -/
theorem loopStep_error {ctl : LoopState} {executed : Counters} {f : Fault}
    (h : loopStep ctl executed = .error f) :
    (ctl.phase = .drain ∧ ∃ item rest, ctl.ctrlWorkList = item :: rest ∧
        item.schedule ctl.schedule ctl.current = .error f) ∨
      (ctl.phase = .ready ∧ ctl.schedule.readyEvent ctl.current = .error f) ∨
      (ctl.phase = .ready ∧ ∃ item s, ctl.schedule.readyEvent ctl.current = .ok (some (item, s)) ∧
        item.trigger.isPeriod = true ∧ item.schedule s ctl.current = .error f) ∨
      f = .nextEvent ∨ f = .execute := by
  unfold loopStep at h
  split at h
  · split_ifs at h
  · rename_i hp
    split at h
    · simp at h
    · rename_i item rest hw
      split at h
      · rename_i f' hs
        obtain rfl := Except.error.inj h
        exact .inl ⟨hp, item, rest, hw, hs⟩
      · simp at h
  · rename_i hp
    split at h
    · rename_i f' hr
      obtain rfl := Except.error.inj h
      exact .inr (.inl ⟨hp, hr⟩)
    · simp at h
    · rename_i item s hr
      simp only at h
      split_ifs at h with ht
      split at h
      · rename_i f' hs
        obtain rfl := Except.error.inj h
        exact .inr (.inr (.inl ⟨hp, item, s, hr, ht, by simpa using hs⟩))
      · simp at h
  · split_ifs at h
    split at h
    · rename_i f' hn
      obtain rfl := Except.error.inj h
      exact .inr (.inr (.inr (.inl (nextEvents_error hn))))
    · split_ifs at h
      exact .inr (.inr (.inr (.inr (Except.error.inj h).symm)))
  · simp at h

/-- What comes to the loop from outside: a command, or a turn of the loop together with the
counts that `SYS_Execute` leaves if that turn calls it. -/
inductive Input
  | command (c : Command)
  | turn (executed : Counters)

/-- Follow a list of inputs while every step meets a condition. -/
def LoopState.follow (ok : LoopState → Label → Prop) [∀ s l, Decidable (ok s l)]
    (ctl : LoopState) : List Input → Option (List Label × LoopState)
  | [] => some ([], ctl)
  | .command c :: inputs =>
    let l := Label.arrive (.new ctl.nextId c)
    if ok ctl l then ((ctl.arrive c).follow ok inputs).map fun r => (l :: r.1, r.2) else none
  | .turn executed :: inputs =>
    match loopStep ctl executed with
    | .ok (some (l, ctl')) =>
      if ok ctl l then (ctl'.follow ok inputs).map fun r => (l :: r.1, r.2) else none
    | _ => none

/-- Followed inputs are a run whose steps meet the condition. -/
theorem LoopState.follow_run {ok : LoopState → Label → Prop} [∀ s l, Decidable (ok s l)]
    {ctl ctl' : LoopState} {inputs : List Input} {tr : List Label}
    (h : ctl.follow ok inputs = some (tr, ctl')) : Lts.Run (Lts.guarded ok Step) ctl tr ctl' := by
  induction inputs generalizing ctl tr with
  | nil =>
    simp only [follow, Option.some.injEq, Prod.mk.injEq] at h
    obtain ⟨rfl, rfl⟩ := h
    exact .nil
  | cons input inputs ih =>
    cases input with
    | command c =>
      simp only [follow] at h
      split_ifs at h with hok
      obtain ⟨⟨tr', s⟩, hf, he⟩ := Option.map_eq_some_iff.mp h
      simp only [Prod.mk.injEq] at he
      obtain ⟨rfl, rfl⟩ := he
      exact .cons ⟨hok, .arrive c⟩ (ih hf)
    | turn executed =>
      simp only [follow] at h
      split at h
      · rename_i l ctl₁ hl
        split_ifs at h with hok
        obtain ⟨⟨tr', s⟩, hf, he⟩ := Option.map_eq_some_iff.mp h
        simp only [Prod.mk.injEq] at he
        obtain ⟨rfl, rfl⟩ := he
        exact .cons ⟨hok, .loop executed hl⟩ (ih hf)
      · simp at h

end Awb.Classic
