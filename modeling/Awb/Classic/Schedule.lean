import Awb.Classic.WorkItem

/-! The schedule of the controller: five lists of work items, each ordered by the counter value
its items wait for, and the operations of `CMD_SCHEDULE_CLASS` on them. -/

namespace Awb.Classic

/-- The checks at which the scheduler can abort, and the division that can trap. -/
inductive Fault
  | readyEvent
  | schedule
  | divideByZero
  | nextEvent
  | execute
  deriving DecidableEq, Repr

/-- `CMD_SCHEDULE_CLASS`. -/
structure Schedule where
  cycleList : WorkList := []
  instList : WorkList := []
  nanosecondList : WorkList := []
  packetList : WorkList := []
  macroInstList : WorkList := []
  deriving DecidableEq, Repr

namespace Schedule

def list (s : Schedule) : CounterKind → WorkList
  | .cycle => s.cycleList
  | .nanosecond => s.nanosecondList
  | .inst => s.instList
  | .macroInst => s.macroInstList
  | .packet => s.packetList

def setList (s : Schedule) (k : CounterKind) (l : WorkList) : Schedule :=
  match k with
  | .cycle => { s with cycleList := l }
  | .nanosecond => { s with nanosecondList := l }
  | .inst => { s with instList := l }
  | .macroInst => { s with macroInstList := l }
  | .packet => { s with packetList := l }

@[simp] theorem list_setList_self (s : Schedule) (k : CounterKind) (l : WorkList) :
    (s.setList k l).list k = l := by
  cases k <;> rfl

theorem list_setList_of_ne (s : Schedule) {k k' : CounterKind} (l : WorkList) (h : k' ≠ k) :
    (s.setList k l).list k' = s.list k' := by
  cases k <;> cases k' <;> first | rfl | exact absurd rfl h

theorem list_setList (s : Schedule) (k k' : CounterKind) (l : WorkList) :
    (s.setList k l).list k' = if k' = k then l else s.list k' := by
  split_ifs with h
  · rw [h, list_setList_self]
  · exact list_setList_of_ne s l h

@[simp] theorem list_empty (k : CounterKind) : ({} : Schedule).list k = [] := by
  cases k <;> rfl

/-- The triggers the lists hold, besides `ACTION_NOW`. -/
def waitsOn : CounterKind → ActionTrigger → Bool
  | .cycle, t => t = .cycleOnce || t = .cyclePeriod
  | .nanosecond, t => t = .nanosecondOnce || t = .nanosecondPeriod
  | .inst, t => t = .instOnce || t = .instPeriod
  | .macroInst, t => t = .macroInstOnce || t = .macroInstPeriod
  | .packet, t => t = .packetOnce

/-- The heads `ReadyEvent` takes: cycles and nanoseconds must be met exactly. -/
def isReady : CounterKind → WorkItem → UInt64 → Bool
  | .cycle, head, current =>
    head.trigger = .now || (waitsOn .cycle head.trigger && head.actionTime = current)
  | .nanosecond, head, current =>
    head.trigger = .now || (waitsOn .nanosecond head.trigger && head.actionTime = current)
  | k, head, current => waitsOn k head.trigger && head.actionTime ≤ current

/-- The heads `ReadyEvent` verifies it may leave. -/
def isFuture (k : CounterKind) (head : WorkItem) (current : UInt64) : Bool :=
  waitsOn k head.trigger && head.actionTime > current

/-- One list of `ReadyEvent`, which is ordered so only its head is read. -/
def readyFrom (s : Schedule) (current : Counters) (k : CounterKind) :
    Except Fault (Option (WorkItem × Schedule)) :=
  match s.list k with
  | [] => .ok none
  | head :: rest =>
    if isReady k head (current.get k) then .ok (some (head, s.setList k rest))
    else if isFuture k head (current.get k) then .ok none
    else .error .readyEvent

def firstReady (s : Schedule) (current : Counters) :
    List CounterKind → Except Fault (Option (WorkItem × Schedule))
  | [] => .ok none
  | k :: ks =>
    match s.readyFrom current k with
    | .ok none => firstReady s current ks
    | r => r

/-- `ReadyEvent`: the next item that should be handled, removed from its list. -/
def readyEvent (s : Schedule) (current : Counters) : Except Fault (Option (WorkItem × Schedule)) :=
  s.firstReady current [.cycle, .nanosecond, .inst, .macroInst, .packet]

/-- `(n / period) * period` as the new action time, which must not be the current count. -/
def align (item : WorkItem) (n current : UInt64) : Except Fault WorkItem :=
  if item.period = 0 then .error .divideByZero
  else if n / item.period * item.period = current then .error .schedule
  else .ok { item with actionTime := n / item.period * item.period }

/-- The first half of `Schedule`: all periodic actions are aligned. -/
def alignPeriod (item : WorkItem) (current : Counters) : Except Fault WorkItem :=
  match item.trigger with
  | .cyclePeriod => align item (current.cycle + 1 + item.period) current.cycle
  | .instPeriod => align item (current.inst + 1 + item.period) current.inst
  | .macroInstPeriod => align item (current.macroInst + 1 + item.period) current.macroInst
  | .nanosecondPeriod => align item (current.nanosecond + item.period) current.nanosecond
  | _ => .ok item

/-- `Schedule`: put `item`, with its action time set, on the list of its trigger. -/
def schedule (s : Schedule) (item : WorkItem) (current : Counters) :
    Except Fault (WorkItem × Schedule) := do
  let item ← alignPeriod item current
  match item.trigger.counter with
  | some k => .ok (item, s.setList k ((s.list k).insertOrdered item))
  | none => .error .schedule

/-- `CycleForNextEvent` and its siblings: the count at which the next event should occur. -/
def forNextEvent (s : Schedule) (k : CounterKind) (current : UInt64) : Except Fault UInt64 :=
  match s.list k with
  | [] => .ok (.ofNat (2 ^ 64 - 1))
  | head :: _ =>
    if (k = .cycle || k = .nanosecond) && head.trigger = .now then .ok current
    else if waitsOn k head.trigger then .ok head.actionTime
    else .error .nextEvent

def clearProgress (s : Schedule) (k : CounterKind) : Schedule :=
  s.setList k (s.list k).clearProgress

/-! ### What one call can do -/

theorem align_ok {item item' : WorkItem} {n current : UInt64} (h : align item n current = .ok item') :
    item.period ≠ 0 ∧ n / item.period * item.period ≠ current ∧
      item' = { item with actionTime := n / item.period * item.period } := by
  unfold align at h
  split_ifs at h with hp hc
  exact ⟨hp, hc, (Except.ok.inj h).symm⟩

theorem align_error {item : WorkItem} {n current : UInt64} {f : Fault}
    (h : align item n current = .error f) : f = .divideByZero ∨ f = .schedule := by
  unfold align at h
  split_ifs at h
  · exact .inl (Except.error.inj h).symm
  · exact .inr (Except.error.inj h).symm

theorem alignPeriod_of_not_isPeriod {item : WorkItem} (h : item.trigger.isPeriod = false)
    (current : Counters) : alignPeriod item current = .ok item := by
  unfold alignPeriod
  cases ht : item.trigger <;> simp_all [ActionTrigger.isPeriod]

/-- Only the action time changes. -/
theorem alignPeriod_ok {item item' : WorkItem} {current : Counters}
    (h : alignPeriod item current = .ok item') :
    item' = { item with actionTime := item'.actionTime } := by
  unfold alignPeriod at h
  split at h
  case h_5 => rw [← Except.ok.inj h]
  all_goals rw [(align_ok h).2.2]

theorem alignPeriod_error {item : WorkItem} {current : Counters} {f : Fault}
    (h : alignPeriod item current = .error f) : f = .divideByZero ∨ f = .schedule := by
  unfold alignPeriod at h
  split at h
  case h_5 => simp at h
  all_goals exact align_error h

theorem schedule_ok_iff {s s' : Schedule} {item item' : WorkItem} {current : Counters} :
    s.schedule item current = .ok (item', s') ↔
      alignPeriod item current = .ok item' ∧ ∃ k, item'.trigger.counter = some k ∧
        s' = s.setList k ((s.list k).insertOrdered item') := by
  unfold schedule
  cases ha : alignPeriod item current with
  | error f => simp [bind, Except.bind]
  | ok i =>
    simp only [bind, Except.bind, Except.ok.injEq]
    cases hk : i.trigger.counter with
    | none =>
      simp only [reduceCtorEq, false_iff, not_and, not_exists]
      rintro rfl k hk'
      simp [hk] at hk'
    | some k =>
      simp only [Except.ok.injEq, Prod.mk.injEq]
      constructor
      · rintro ⟨rfl, rfl⟩
        exact ⟨rfl, k, hk, rfl⟩
      · rintro ⟨rfl, k', hk', rfl⟩
        obtain rfl : k = k' := Option.some.inj (hk.symm.trans hk')
        exact ⟨rfl, rfl⟩

theorem readyFrom_some {s s' : Schedule} {current : Counters} {k : CounterKind} {item : WorkItem}
    (h : s.readyFrom current k = .ok (some (item, s'))) :
    ∃ rest, s.list k = item :: rest ∧ isReady k item (current.get k) = true ∧
      s' = s.setList k rest := by
  unfold readyFrom at h
  split at h
  · simp at h
  · rename_i head rest hl
    split_ifs at h with hr hf
    · simp only [Except.ok.injEq, Option.some.injEq, Prod.mk.injEq] at h
      obtain ⟨rfl, rfl⟩ := h
      exact ⟨rest, hl, hr, rfl⟩
    · simp at h

theorem readyFrom_none {s : Schedule} {current : Counters} {k : CounterKind}
    (h : s.readyFrom current k = .ok none) :
    ∀ head ∈ (s.list k).head?, isFuture k head (current.get k) = true := by
  unfold readyFrom at h
  split at h
  · rename_i hl
    simp [hl]
  · rename_i head rest hl
    split_ifs at h with hr hf
    · simp at h
    · simpa [hl] using hf

/-- The lists before the one an item is taken from have nothing ready. -/
theorem firstReady_some {s s' : Schedule} {current : Counters} {item : WorkItem}
    {ks : List CounterKind} (h : s.firstReady current ks = .ok (some (item, s'))) :
    ∃ before k after, ks = before ++ k :: after ∧ s.readyFrom current k = .ok (some (item, s')) ∧
      ∀ k' ∈ before, s.readyFrom current k' = .ok none := by
  induction ks with
  | nil => simp [firstReady] at h
  | cons k ks ih =>
    unfold firstReady at h
    split at h
    · rename_i hk
      obtain ⟨before, k', after, rfl, hr, hb⟩ := ih h
      exact ⟨k :: before, k', after, rfl, hr, by simpa [hk] using hb⟩
    · exact ⟨[], k, ks, rfl, h, by simp⟩

theorem firstReady_none {s : Schedule} {current : Counters} {ks : List CounterKind}
    (h : s.firstReady current ks = .ok none) : ∀ k ∈ ks, s.readyFrom current k = .ok none := by
  induction ks with
  | nil => simp
  | cons k ks ih =>
    unfold firstReady at h
    split at h
    · rename_i hk
      simpa [hk] using ih h
    · rename_i hk
      exact absurd h hk

theorem firstReady_error {s : Schedule} {current : Counters} {ks : List CounterKind} {f : Fault}
    (h : s.firstReady current ks = .error f) : ∃ k ∈ ks, s.readyFrom current k = .error f := by
  induction ks with
  | nil => simp [firstReady] at h
  | cons k ks ih =>
    unfold firstReady at h
    split at h
    · obtain ⟨k', hk', hf⟩ := ih h
      exact ⟨k', .tail _ hk', hf⟩
    · exact ⟨k, List.mem_cons_self .., h⟩

/-- An item `ReadyEvent` returns was the ready head of a list. -/
theorem readyEvent_some {s s' : Schedule} {current : Counters} {item : WorkItem}
    (h : s.readyEvent current = .ok (some (item, s'))) :
    ∃ k rest, s.list k = item :: rest ∧ isReady k item (current.get k) = true ∧
      s' = s.setList k rest := by
  obtain ⟨_, k, _, _, hr, _⟩ := firstReady_some h
  exact ⟨k, readyFrom_some hr⟩

theorem readyEvent_none {s : Schedule} {current : Counters} (h : s.readyEvent current = .ok none)
    (k : CounterKind) : ∀ head ∈ (s.list k).head?, isFuture k head (current.get k) = true := by
  apply readyFrom_none
  apply firstReady_none h
  cases k <;> simp

theorem readyEvent_error {s : Schedule} {current : Counters} {f : Fault}
    (h : s.readyEvent current = .error f) : ∃ k head rest, s.list k = head :: rest ∧
      isReady k head (current.get k) = false ∧ isFuture k head (current.get k) = false := by
  obtain ⟨k, _, hk⟩ := firstReady_error h
  unfold readyFrom at hk
  split at hk
  · simp at hk
  · rename_i head rest hl
    split_ifs at hk with hr hf
    exact ⟨k, head, rest, hl, by simpa using hr, by simpa using hf⟩

end Schedule
end Awb.Classic
