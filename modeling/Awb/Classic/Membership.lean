import Awb.Classic.SchedulerLoop

/-! Where the items of the work lists come from. A step puts at most one item on a list: the one
it schedules, with its action time set. What holds of items when they are placed therefore holds
of the lists after every run. -/

namespace Awb.Classic

/-- The item whose `Schedule` method the step called, and what became of it. -/
def Label.scheduled : Label → Option (WorkItem × Scheduled)
  | .drain item r => some (item, r)
  | .process item _ (some r) => some (item, r)
  | _ => none

theorem mem_insertOrdered {x wi : WorkItem} {l : WorkList} :
    x ∈ l.insertOrdered wi ↔ x = wi ∨ x ∈ l := StableInsert.mem_insert _ _ _ _

/-- Scheduling an item adds nothing to the lists but that item. -/
theorem mem_list_of_schedule {item x : WorkItem} {s s' : Schedule} {current : Counters}
    {r : Scheduled} {k : CounterKind} (h : item.schedule s current = .ok (r, s'))
    (hx : x ∈ s'.list k) : x ∈ s.list k ∨
      r = .placed x ∧ item.kind.clears = none ∧ x.trigger.counter = some k ∧
        Schedule.alignPeriod item current = .ok x := by
  rcases WorkItem.schedule_ok h with ⟨k', -, rfl, rfl⟩ | ⟨item', hc, rfl, hs⟩
  · left
    rw [Schedule.clearProgress, Schedule.list_setList] at hx
    split_ifs at hx with hk
    · exact hk ▸ (List.mem_filter.mp hx).1
    · exact hx
  · obtain ⟨ha, k', hk', rfl⟩ := Schedule.schedule_ok_iff.mp hs
    rw [Schedule.list_setList] at hx
    split_ifs at hx with hk
    · subst hk
      rcases mem_insertOrdered.mp hx with rfl | hx
      · exact .inr ⟨rfl, hc, hk', ha⟩
      · exact .inl hx
    · exact .inl hx

/-- Taking the next ready item adds nothing to the lists. -/
theorem mem_list_of_readyEvent {item x : WorkItem} {s s' : Schedule} {current : Counters}
    {k : CounterKind} (h : s.readyEvent current = .ok (some (item, s'))) (hx : x ∈ s'.list k) :
    x ∈ s.list k := by
  obtain ⟨k', rest, hl, -, rfl⟩ := Schedule.readyEvent_some h
  rw [Schedule.list_setList] at hx
  split_ifs at hx with hk
  · rw [hk, hl]
    exact .tail _ hx
  · exact hx

theorem mem_of_readyEvent {item : WorkItem} {s s' : Schedule} {current : Counters}
    (h : s.readyEvent current = .ok (some (item, s'))) : ∃ k, item ∈ s.list k := by
  obtain ⟨k, rest, hl, -⟩ := Schedule.readyEvent_some h
  exact ⟨k, hl ▸ List.mem_cons_self ..⟩

/-- The item was on one of the lists of the controller. -/
def LoopState.Holds (ctl : LoopState) (item : WorkItem) : Prop :=
  item ∈ ctl.ctrlWorkList ∨ ∃ k, item ∈ ctl.schedule.list k

theorem Move.scheduled_holds {ctl ctl' : LoopState} {l : Label} (h : Move ctl l ctl')
    {item : WorkItem} {r : Scheduled} (hl : l.scheduled = some (item, r)) : ctl.Holds item := by
  cases h <;> simp only [Label.scheduled, reduceCtorEq, Option.some.injEq, Prod.mk.injEq] at hl
  case drain hw _ =>
    obtain ⟨rfl, -⟩ := hl
    exact .inl (hw ▸ List.mem_cons_self ..)
  case reprocess hr _ _ =>
    obtain ⟨rfl, -⟩ := hl
    exact .inr (mem_of_readyEvent hr)

/-- An item on a list after a step was there before, or the step placed it. -/
theorem Move.mem_list {ctl ctl' : LoopState} {l : Label} (h : Move ctl l ctl') {k : CounterKind}
    {x : WorkItem} (hx : x ∈ ctl'.schedule.list k) : x ∈ ctl.schedule.list k ∨
      ∃ item, l.scheduled = some (item, .placed x) ∧ item.kind.clears = none ∧
        x.trigger.counter = some k ∧ Schedule.alignPeriod item ctl.current = .ok x := by
  cases h with
  | arrive | sample | leave | drained | idle | wait | execute => exact .inl hx
  | drain _ _ hs =>
    rcases mem_list_of_schedule hs hx with h | ⟨rfl, hc, hk, ha⟩
    · exact .inl h
    · exact .inr ⟨_, rfl, hc, hk, ha⟩
  | process _ hr _ =>
    rw [cmdAction_schedule] at hx
    exact .inl (mem_list_of_readyEvent hr hx)
  | reprocess _ hr _ hs =>
    rcases mem_list_of_schedule hs hx with h | ⟨rfl, hc, hk, ha⟩
    · exact .inl (mem_list_of_readyEvent hr h)
    · exact .inr ⟨_, rfl, hc, hk, ha⟩

/-- An item on the controller work list after a step was there before, or has just arrived. -/
theorem Move.mem_ctrlWorkList {ctl ctl' : LoopState} {l : Label} (h : Move ctl l ctl')
    {x : WorkItem} (hx : x ∈ ctl'.ctrlWorkList) : x ∈ ctl.ctrlWorkList ∨
      ∃ c, x = .new ctl.nextId c ∧ l = .arrive x := by
  cases h with
  | arrive c =>
    rcases List.mem_append.mp hx with hx | hx
    · exact .inl hx
    · exact .inr ⟨c, List.mem_singleton.mp hx, by rw [List.mem_singleton.mp hx]⟩
  | sample | leave | drained | idle | wait | execute => exact .inl hx
  | drain _ hw _ => exact .inl (hw ▸ .tail _ hx)
  | process => exact .inl (by simpa using hx)
  | reprocess => exact .inl (by simpa using hx)

/-- What the lists hold: each list its own triggers, no clearing commands, and actions for now
with time 0. -/
structure WellPlaced (ctl : LoopState) : Prop where
  counter : ∀ k, ∀ x ∈ ctl.schedule.list k, x.trigger.counter = some k
  clears : ∀ k, ∀ x ∈ ctl.schedule.list k, x.kind.clears = none
  nowZero : ∀ x, ctl.Holds x → x.NowZero

theorem alignPeriod_trigger {item x : WorkItem} {current : Counters}
    (h : Schedule.alignPeriod item current = .ok x) : x.trigger = item.trigger := by
  rw [Schedule.alignPeriod_ok h]

theorem alignPeriod_kind {item x : WorkItem} {current : Counters}
    (h : Schedule.alignPeriod item current = .ok x) : x.kind = item.kind := by
  rw [Schedule.alignPeriod_ok h]

theorem alignPeriod_id {item x : WorkItem} {current : Counters}
    (h : Schedule.alignPeriod item current = .ok x) : x.id = item.id := by
  rw [Schedule.alignPeriod_ok h]

theorem alignPeriod_period {item x : WorkItem} {current : Counters}
    (h : Schedule.alignPeriod item current = .ok x) : x.period = item.period := by
  rw [Schedule.alignPeriod_ok h]

theorem alignPeriod_nowZero {item x : WorkItem} {current : Counters} (hi : item.NowZero)
    (h : Schedule.alignPeriod item current = .ok x) : x.NowZero := by
  intro ht
  have htr : item.trigger = .now := alignPeriod_trigger h ▸ ht
  have hp : item.trigger.isPeriod = false := by rw [htr]; rfl
  rw [Schedule.alignPeriod_of_not_isPeriod hp, Except.ok.injEq] at h
  subst h
  exact hi ht

theorem wellPlaced_start (current system : Counters) : WellPlaced (start current system) := by
  constructor <;> simp [start, LoopState.Holds]

theorem WellPlaced.step {ctl ctl' : LoopState} {l : Label} (hw : WellPlaced ctl)
    (h : Move ctl l ctl') : WellPlaced ctl' := by
  constructor
  · intro k x hx
    rcases h.mem_list hx with hx | ⟨_, _, _, hk, _⟩
    · exact hw.counter k x hx
    · exact hk
  · intro k x hx
    rcases h.mem_list hx with hx | ⟨_, _, hc, _, ha⟩
    · exact hw.clears k x hx
    · rw [alignPeriod_kind ha, hc]
  · rintro x (hx | ⟨k, hx⟩)
    · rcases h.mem_ctrlWorkList hx with hx | ⟨c, rfl, -⟩
      · exact hw.nowZero x (.inl hx)
      · exact WorkItem.new_nowZero _ c
    · rcases h.mem_list hx with hx | ⟨item, hl, -, -, ha⟩
      · exact hw.nowZero x (.inr ⟨k, hx⟩)
      · exact alignPeriod_nowZero (hw.nowZero item (h.scheduled_holds hl)) ha

theorem WellPlaced.run {ctl ctl' : LoopState} {tr : List Label} (hw : WellPlaced ctl)
    (run : Lts.Run Step ctl tr ctl') : WellPlaced ctl' :=
  run.invariant (fun _ c => WellPlaced c) hw fun _ _ _ _ h hs => h.step hs.move

end Awb.Classic
