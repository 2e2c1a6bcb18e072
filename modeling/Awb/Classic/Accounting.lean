import Awb.Classic.Membership

/-! Accounting for the work items. The number of times an item is held on the lists, plus the
number of times it has left them, is the number of times it was added, which is once. -/

namespace Awb.Classic

/-- How often an object stands on a list. -/
def WorkList.countId (l : WorkList) (id : Nat) : Nat := l.countP fun x => x.id = id

@[simp] theorem countId_nil (id : Nat) : WorkList.countId [] id = 0 := rfl

theorem countId_cons (x : WorkItem) (l : WorkList) (id : Nat) :
    WorkList.countId (x :: l) id = WorkList.countId l id + WorkList.countId [x] id := by
  simp only [WorkList.countId, List.countP_cons, List.countP_nil, Nat.zero_add]

theorem countId_append (l l' : WorkList) (id : Nat) :
    WorkList.countId (l ++ l') id = WorkList.countId l id + WorkList.countId l' id :=
  List.countP_append

theorem countId_singleton_congr {x y : WorkItem} (h : x.id = y.id) (id : Nat) :
    WorkList.countId [x] id = WorkList.countId [y] id := by
  simp only [WorkList.countId, List.countP_cons, List.countP_nil, h]

theorem countId_pos {l : WorkList} {x : WorkItem} (h : x ∈ l) : 0 < l.countId x.id :=
  List.countP_pos_iff.mpr ⟨x, h, by simp⟩

theorem countId_insertOrdered (wi : WorkItem) (l : WorkList) (id : Nat) :
    (l.insertOrdered wi).countId id = l.countId id + WorkList.countId [wi] id := by
  rw [WorkList.insertOrdered, WorkList.countId, (StableInsert.perm_insert _ wi l).countP_eq]
  exact countId_cons wi l id

theorem countId_clearProgress (l : WorkList) (id : Nat) :
    l.clearProgress.countId id + l.progressItems.countId id = l.countId id := by
  unfold WorkList.clearProgress WorkList.progressItems WorkList.countId
  rw [← List.countP_append]
  induction l with
  | nil => rfl
  | cons x l ih =>
    rw [List.countP_append] at ih ⊢
    cases hx : WorkList.isProgress x <;> simp only [List.filter_cons, hx, Bool.not_false,
      Bool.not_true, if_true, if_false, Bool.false_eq_true, List.countP_cons] <;> omega

def Schedule.countId (s : Schedule) (id : Nat) : Nat :=
  s.cycleList.countId id + s.nanosecondList.countId id + s.instList.countId id +
    s.macroInstList.countId id + s.packetList.countId id

theorem Schedule.countId_setList (s : Schedule) (k : CounterKind) (l : WorkList) (id : Nat) :
    (s.setList k l).countId id + (s.list k).countId id = s.countId id + l.countId id := by
  cases k <;> simp only [Schedule.countId, Schedule.setList, Schedule.list] <;> omega

theorem Schedule.countId_list_le (s : Schedule) (k : CounterKind) (id : Nat) :
    (s.list k).countId id ≤ s.countId id := by
  cases k <;> simp only [Schedule.countId, Schedule.list] <;> omega

/-- How often an object is held by the controller. -/
def LoopState.countId (ctl : LoopState) (id : Nat) : Nat :=
  ctl.ctrlWorkList.countId id + ctl.schedule.countId id

/-- The items a call of `Schedule` deletes from a list. -/
def Scheduled.deleted : Scheduled → WorkList
  | .placed _ => []
  | .cleared _ deleted => deleted

namespace Label

def arrived : Label → WorkList
  | arrive item => [item]
  | _ => []

/-- An item that is deleted after it was processed. -/
def finished : Label → WorkList
  | process item _ none => [item]
  | _ => []

/-- The items a progress clear deletes. -/
def deleted (l : Label) : WorkList :=
  match l.scheduled with
  | some (_, r) => r.deleted
  | none => []

/-- A clearing progress command, which is never put on the schedule. -/
def clearing (l : Label) : WorkList :=
  match l.scheduled with
  | some (item, .cleared ..) => [item]
  | _ => []

/-- The step processes the object. -/
def processes (id : Nat) : Label → Bool
  | process item _ _ => item.id = id
  | _ => false

end Label

/-- Scheduling an item places it, or spends it on clearing a list. -/
theorem countId_of_schedule {item : WorkItem} {s s' : Schedule} {current : Counters}
    {r : Scheduled} (h : item.schedule s current = .ok (r, s')) (id : Nat) :
    s'.countId id + r.deleted.countId id + WorkList.countId (Label.drain item r).clearing id =
      s.countId id + WorkList.countId [item] id := by
  rcases WorkItem.schedule_ok h with ⟨k, -, rfl, rfl⟩ | ⟨item', -, rfl, hs⟩
  · have h1 := s.countId_setList k (s.list k).clearProgress id
    have h2 := countId_clearProgress (s.list k) id
    simp only [Schedule.clearProgress, Scheduled.deleted, Label.clearing, Label.scheduled]
    omega
  · obtain ⟨ha, k, -, rfl⟩ := Schedule.schedule_ok_iff.mp hs
    have h1 := s.countId_setList k ((s.list k).insertOrdered item') id
    have h2 := countId_insertOrdered item' (s.list k) id
    have h3 := countId_singleton_congr (alignPeriod_id ha) id
    simp only [Scheduled.deleted, Label.clearing, Label.scheduled, countId_nil]
    omega

theorem countId_of_readyEvent {item : WorkItem} {s s' : Schedule} {current : Counters}
    (h : s.readyEvent current = .ok (some (item, s'))) (id : Nat) :
    s'.countId id + WorkList.countId [item] id = s.countId id := by
  obtain ⟨k, rest, hl, -, rfl⟩ := Schedule.readyEvent_some h
  have h1 := s.countId_setList k rest id
  rw [hl, countId_cons] at h1
  omega

/-- What one step adds to the lists and what leaves them. -/
theorem Move.countId {ctl ctl' : LoopState} {l : Label} (h : Move ctl l ctl') (id : Nat) :
    ctl'.countId id + l.finished.countId id + l.deleted.countId id + l.clearing.countId id =
      ctl.countId id + l.arrived.countId id := by
  cases h with
  | arrive c =>
    simp only [LoopState.countId, LoopState.arrive, Controller.command, WorkList.add,
      countId_append, Label.finished, Label.deleted, Label.clearing, Label.scheduled,
      Label.arrived, countId_nil]
    omega
  | sample | leave | drained | idle | wait | execute =>
    simp [LoopState.countId, Label.finished, Label.deleted, Label.clearing, Label.scheduled,
      Label.arrived]
  | @drain item rest r s _ hw hs =>
    have h1 := countId_of_schedule hs id
    have h2 := countId_cons item rest id
    simp only [LoopState.countId, hw, Label.finished, Label.deleted, Label.scheduled,
      Label.arrived, countId_nil]
    omega
  | @process item s _ hr _ =>
    have h1 := countId_of_readyEvent hr id
    simp only [LoopState.countId, cmdAction_ctrlWorkList, cmdAction_schedule, Label.finished,
      Label.deleted, Label.clearing, Label.scheduled, Label.arrived, countId_nil]
    omega
  | @reprocess item s s' r _ hr _ hs =>
    have h1 := countId_of_readyEvent hr id
    have h2 := countId_of_schedule hs id
    simp only [Label.clearing, Label.scheduled] at h2
    simp only [LoopState.countId, cmdAction_ctrlWorkList, Label.finished,
      Label.deleted, Label.clearing, Label.scheduled, Label.arrived, countId_nil]
    omega

/-- How often an object is mentioned in a trace in one of the roles above. -/
def traceCount (role : Label → WorkList) (tr : List Label) (id : Nat) : Nat :=
  WorkList.countId (tr.flatMap role) id

theorem traceCount_append_singleton (role : Label → WorkList) (tr : List Label) (l : Label)
    (id : Nat) : traceCount role (tr ++ [l]) id = traceCount role tr id + (role l).countId id := by
  simp [traceCount, List.flatMap_append, countId_append]

theorem run_countId {current system : Counters} {ctl : LoopState} {tr : List Label}
    (run : Lts.Run Step (start current system) tr ctl) (id : Nat) :
    ctl.countId id + traceCount Label.finished tr id + traceCount Label.deleted tr id +
      traceCount Label.clearing tr id = traceCount Label.arrived tr id := by
  apply run.invariant fun tr ctl => ctl.countId id + traceCount Label.finished tr id +
    traceCount Label.deleted tr id + traceCount Label.clearing tr id =
      traceCount Label.arrived tr id
  · simp [start, LoopState.countId, Schedule.countId, traceCount]
  · intro tr ctl l ctl' ih h
    have hc := h.move.countId id
    simp only [traceCount_append_singleton]
    omega

theorem Move.nextId {ctl ctl' : LoopState} {l : Label} (h : Move ctl l ctl') :
    ctl'.nextId = ctl.nextId + l.arrived.length := by
  cases h <;> simp [Label.arrived, LoopState.arrive, Controller.command]

theorem Move.arrived_id {ctl ctl' : LoopState} {l : Label} (h : Move ctl l ctl') {x : WorkItem}
    (hx : x ∈ l.arrived) : x.id = ctl.nextId := by
  cases h <;> simp only [Label.arrived, List.not_mem_nil, List.mem_singleton] at hx
  rw [hx, WorkItem.new]

/-- Every object is added once, under an address not used before. -/
theorem run_arrived {current system : Counters} {ctl : LoopState} {tr : List Label}
    (run : Lts.Run Step (start current system) tr ctl) (id : Nat) :
    traceCount Label.arrived tr id = if id < ctl.nextId then 1 else 0 := by
  apply run.invariant fun tr ctl =>
    traceCount Label.arrived tr id = if id < ctl.nextId then 1 else 0
  · simp [start, traceCount]
  · intro tr ctl l ctl' ih h
    rw [traceCount_append_singleton, ih, h.move.nextId]
    cases hl : l.arrived with
    | nil => simp
    | cons x rest =>
      have hx := h.move.arrived_id (hl ▸ List.mem_cons_self ..)
      obtain rfl : rest = [] := by
        cases l <;> simp_all [Label.arrived]
      rw [List.length_singleton, WorkList.countId, List.countP_singleton, hx]
      by_cases h1 : id = ctl.nextId
      · subst h1; simp
      · have h2 : ¬ ctl.nextId = id := fun e => h1 e.symm
        have h3 : id < ctl.nextId + 1 ↔ id < ctl.nextId := by omega
        simp [h2, h3]

theorem run_countId_le {current system : Counters} {ctl : LoopState} {tr : List Label}
    (run : Lts.Run Step (start current system) tr ctl) (id : Nat) : ctl.countId id ≤ 1 := by
  have h1 := run_countId run id
  have h2 := run_arrived run id
  split_ifs at h2 <;> omega

/-- The command an item was made from is in the trace. -/
def Arrived (tr : List Label) (x : WorkItem) : Prop :=
  ∃ a, Label.arrive a ∈ tr ∧ a.id = x.id ∧ a.kind = x.kind ∧ a.trigger = x.trigger ∧
    a.period = x.period

theorem Arrived.append {tr : List Label} {x : WorkItem} (h : Arrived tr x) (l : Label) :
    Arrived (tr ++ [l]) x := by
  obtain ⟨a, ha, h⟩ := h
  exact ⟨a, List.mem_append_left _ ha, h⟩

theorem Arrived.align {tr : List Label} {item x : WorkItem} {current : Counters}
    (h : Arrived tr item) (ha : Schedule.alignPeriod item current = .ok x) : Arrived tr x := by
  obtain ⟨a, hm, h1, h2, h3, h4⟩ := h
  exact ⟨a, hm, h1.trans (alignPeriod_id ha).symm, h2.trans (alignPeriod_kind ha).symm,
    h3.trans (alignPeriod_trigger ha).symm, h4.trans (alignPeriod_period ha).symm⟩

theorem run_holds_arrived {current system : Counters} {ctl : LoopState} {tr : List Label}
    (run : Lts.Run Step (start current system) tr ctl) : ∀ x, ctl.Holds x → Arrived tr x := by
  apply run.invariant fun tr ctl => ∀ x, ctl.Holds x → Arrived tr x
  · simp [start, LoopState.Holds]
  · rintro tr ctl l ctl' ih h x (hx | ⟨k, hx⟩)
    · rcases h.move.mem_ctrlWorkList hx with hx | ⟨c, -, rfl⟩
      · exact (ih x (.inl hx)).append l
      · exact ⟨x, by simp⟩
    · rcases h.move.mem_list hx with hx | ⟨item, hl, -, -, ha⟩
      · exact (ih x (.inr ⟨k, hx⟩)).append l
      · exact ((ih item (h.move.scheduled_holds hl)).align ha).append l

theorem run_arrive_unique {current system : Counters} {ctl : LoopState} {tr : List Label}
    (run : Lts.Run Step (start current system) tr ctl) {a b : WorkItem}
    (ha : Label.arrive a ∈ tr) (hb : Label.arrive b ∈ tr) (h : a.id = b.id) : a = b := by
  have key := run.invariant (fun tr ctl => (∀ a, Label.arrive a ∈ tr → a.id < ctl.nextId) ∧
    ∀ a b, Label.arrive a ∈ tr → Label.arrive b ∈ tr → a.id = b.id → a = b) (by simp) ?_
  · exact key.2 a b ha hb h
  · rintro tr ctl l ctl' ⟨hlt, hinj⟩ hs
    have hn := hs.move.nextId
    have hid : ∀ a, l = .arrive a → a.id = ctl.nextId := fun a hl =>
      hs.move.arrived_id (by simp [hl, Label.arrived])
    have hone : ∀ a, l = .arrive a → l.arrived.length = 1 := fun a hl => by
      simp [hl, Label.arrived]
    constructor
    · intro a ha
      rcases List.mem_append.mp ha with ha | ha
      · exact (hlt a ha).trans_le (by omega)
      · have hl := (List.mem_singleton.mp ha).symm
        have := hid a hl
        have := hone a hl
        omega
    · intro a b ha hb hab
      rcases List.mem_append.mp ha with ha | ha <;> rcases List.mem_append.mp hb with hb | hb
      · exact hinj a b ha hb hab
      · have := hlt a ha
        have := hid b (List.mem_singleton.mp hb).symm
        omega
      · have := hlt b hb
        have := hid a (List.mem_singleton.mp ha).symm
        omega
      · simpa using (List.mem_singleton.mp ha).trans (List.mem_singleton.mp hb).symm

end Awb.Classic
