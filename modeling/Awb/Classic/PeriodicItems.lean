import Awb.Classic.Reachable

/-! When periodic items are processed. Between two passes an item waits for the multiple of its
period that follows the last one; the exact condition is that of the first scheduling, because
from a multiple on only the period 1 can skip. -/

namespace Awb.Classic

/-- The counter passes through every value the loop can observe: `SYS_Execute` never goes past
the limit it is given. The item is not deleted and its rescheduling does not overflow. -/
def Steady (id : Nat) (k : CounterKind) (ctl : LoopState) : Label → Prop
  | .execute limits executed =>
    (ctl.system.get k).toNat ≤ (executed.get k).toNat ∧
      (executed.get k).toNat ≤ (limits.get k).toNat
  | .process item current (some _) => item.id = id → dividend item current < 2 ^ 64
  | .drain _ r => r.deleted.countId id = 0
  | _ => True

/-- The counts at which the step processes the item. -/
def Label.processedAt (id : Nat) (k : CounterKind) : Label → List Nat
  | .process item current _ => if item.id = id then [(current.get k).toNat] else []
  | _ => []

def processedAt (tr : List Label) (id : Nat) (k : CounterKind) : List Nat :=
  tr.flatMap (Label.processedAt id k)

theorem processedAt_append_singleton (tr : List Label) (l : Label) (id : Nat) (k : CounterKind) :
    processedAt (tr ++ [l]) id k = processedAt tr id k ++ l.processedAt id k := by
  simp [processedAt]

/-- The item waits for the multiple that follows `last`, the count at which it was processed last
or at first scheduled. -/
structure Waiting (item : WorkItem) (k : CounterKind) (first : Nat) (tr : List Label)
    (ctl : LoopState) (x : WorkItem) (last : Nat) : Prop where
  mem : x ∈ ctl.schedule.list k
  id_eq : x.id = item.id
  trigger_eq : x.trigger = item.trigger
  period_eq : x.period = item.period
  time_eq : x.time = Multiples.next item.period.toNat last
  first_le : first ≤ last
  last_le : last ≤ (ctl.current.get k).toNat
  current_le : (ctl.current.get k).toNat ≤ (ctl.system.get k).toNat
  system_le : (ctl.system.get k).toNat ≤ x.time
  passed : ctl.phase = .inform → (ctl.current.get k).toNat < x.time
  processed : processedAt tr item.id k = Multiples.between item.period.toNat first last

variable {item x : WorkItem} {k : CounterKind} {first last : Nat} {tr : List Label}
  {ctl ctl' : LoopState} {l : Label}

theorem Waiting.countId_pos (hw : Waiting item k first tr ctl x last) :
    0 < ctl.schedule.countId item.id := by
  have h1 := Awb.Classic.countId_pos hw.mem
  have h2 := ctl.schedule.countId_list_le k x.id
  rw [hw.id_eq] at h1 h2
  omega

/-- A step that leaves the counts and the item alone leaves it waiting. -/
theorem Waiting.frame (hw : Waiting item k first tr ctl x last) (hmem : x ∈ ctl'.schedule.list k)
    (hcur : ctl'.current = ctl.current) (hsys : ctl'.system = ctl.system)
    (hphase : ctl'.phase = .inform → ctl.phase = .inform)
    (hl : l.processedAt item.id k = []) : Waiting item k first (tr ++ [l]) ctl' x last where
  mem := hmem
  id_eq := hw.id_eq
  trigger_eq := hw.trigger_eq
  period_eq := hw.period_eq
  time_eq := hw.time_eq
  first_le := hw.first_le
  last_le := hcur ▸ hw.last_le
  current_le := by rw [hcur, hsys]; exact hw.current_le
  system_le := hsys ▸ hw.system_le
  passed h := hcur ▸ hw.passed (hphase h)
  processed := by rw [processedAt_append_singleton, hl, List.append_nil, hw.processed]

/-- From a multiple of the period, the source's formulas find the next one unless they start one
further and the period is 1. -/
theorem next_alignedFrom {p : Nat} (hp : 0 < p) (k : CounterKind) (current : Counters) :
    Multiples.next p (alignedFrom k current) = Multiples.next p (current.get k).toNat ↔
      k = .nanosecond ∨ ¬ p ∣ (current.get k).toNat + 1 := by
  unfold alignedFrom
  split_ifs with h
  · simp [h]
  · simpa [h] using Multiples.next_succ_eq_iff hp _

/-- The item is processed when its count is reached, and waits for the next multiple then. -/
theorem Waiting.reprocess (hw : Waiting item k first tr ctl x last) (hr : Reachable ctl)
    (hperiod : item.trigger.isPeriod = true) (hpos : 0 < item.period.toNat)
    (hskip : k = .nanosecond ∨ item.period.toNat ≠ 1) (hphase : ctl.phase = .ready)
    {s s' : Schedule} {r : Scheduled} (hready : ctl.schedule.readyEvent ctl.current = .ok (some (x, s)))
    (hov : dividend x ctl.current < 2 ^ 64) (hs : x.schedule s ctl.current = .ok (r, s')) :
    ∃ x' last', Waiting item k first (tr ++ [.process x ctl.current (some r)])
      { { ctl with schedule := s }.cmdAction x with schedule := s' } x' last' := by
  obtain ⟨k', rest, hl, hdue, rfl⟩ := Schedule.readyEvent_some hready
  have hwp := hr.wellPlaced
  have hmem : x ∈ ctl.schedule.list k' := hl ▸ List.mem_cons_self ..
  have hk := hwp.counter k x hw.mem
  obtain rfl : k' = k := Option.some.inj ((hwp.counter k' x hmem).symm.trans hk)
  -- the item is due, and the system was not allowed past its time
  have hle := time_le_of_isReady (hwp.nowZero x (.inr ⟨k', hmem⟩)) hdue
  have hnow : (ctl.current.get k').toNat = x.time :=
    le_antisymm (hw.current_le.trans hw.system_le) hle
  obtain ⟨k'', hc, -, -⟩ | ⟨x', -, rfl, hs'⟩ := WorkItem.schedule_ok hs
  · simp [hwp.clears k' x hmem] at hc
  obtain ⟨ha, k'', hk'', rfl⟩ := Schedule.schedule_ok_iff.mp hs'
  have hper : x.trigger.isPeriod = true := hw.trigger_eq ▸ hperiod
  obtain rfl : k' = k'' := by
    rw [alignPeriod_trigger ha, hk] at hk''
    exact Option.some.inj hk''
  have hdvd : item.period.toNat ∣ (ctl.current.get k').toNat := by
    rw [hnow, hw.time_eq]
    exact Multiples.dvd_next _ _
  have htime : x'.time = Multiples.next item.period.toNat (ctl.current.get k').toNat := by
    rw [(alignPeriod_time hper hk hov ha).2, hw.period_eq, next_alignedFrom hpos]
    refine hskip.imp_right fun hp hd => hp ?_
    exact Nat.dvd_one.mp ((Nat.dvd_add_right hdvd).mp hd)
  have hlt := Multiples.lt_next hpos (ctl.current.get k').toNat
  have hlast := hw.last_le
  have hsys : ctl.current = ctl.system := hr.current_eq (.inr (.inl hphase))
  refine ⟨x', (ctl.current.get k').toNat, ?_, ?_, ?_, ?_, htime, ?_, ?_, ?_, ?_, ?_, ?_⟩
  · simp [mem_insertOrdered]
  · rw [alignPeriod_id ha, hw.id_eq]
  · rw [alignPeriod_trigger ha, hw.trigger_eq]
  · rw [alignPeriod_period ha, hw.period_eq]
  · exact hw.first_le.trans hlast
  · simp
  · simpa using hw.current_le
  · simp only [cmdAction_system, ← hsys, htime]
    exact hlt.le
  · simp [hphase]
  · rw [processedAt_append_singleton, hw.processed, Label.processedAt, if_pos hw.id_eq, hnow,
      hw.time_eq, Multiples.between_next hpos hw.first_le]

theorem Waiting.step (hw : Waiting item k first tr ctl x last) (hr : Reachable ctl)
    (hperiod : item.trigger.isPeriod = true) (hpos : 0 < item.period.toNat)
    (hskip : k = .nanosecond ∨ item.period.toNat ≠ 1) (hs : Steady item.id k ctl l)
    (h : Step ctl l ctl') : ∃ x' last', Waiting item k first (tr ++ [l]) ctl' x' last' := by
  have hone := hr.countId_le item.id
  rw [LoopState.countId] at hone
  cases h.move with
  | arrive c => exact ⟨x, last, hw.frame hw.mem rfl rfl id rfl⟩
  | leave => exact ⟨x, last, hw.frame hw.mem rfl rfl (by simp) rfl⟩
  | drained => exact ⟨x, last, hw.frame hw.mem rfl rfl (by simp) rfl⟩
  | wait => exact ⟨x, last, hw.frame hw.mem rfl rfl (by simp) rfl⟩
  | drain hp _ hsch =>
    rcases list_of_schedule hsch hw.mem with hm | hm
    · exact ⟨x, last, hw.frame hm rfl rfl id rfl⟩
    · have hz : _ = 0 := hs
      have := Awb.Classic.countId_pos hm
      rw [hw.id_eq, hz] at this
      exact absurd this (Nat.lt_irrefl 0)
  | sample =>
    have hframe : Waiting item k first (tr ++ [.sample]) ctl x last := hw.frame hw.mem rfl rfl id rfl
    exact ⟨x, last, { hframe with
      last_le := hw.last_le.trans hw.current_le
      current_le := le_rfl
      passed := by simp }⟩
  | idle hp hready =>
    have hframe : Waiting item k first (tr ++ [.idle]) ctl x last := hw.frame hw.mem rfl rfl id rfl
    exact ⟨x, last, { hframe with
      passed := fun _ => lt_time_of_idle hr hready hw.mem }⟩
  | @execute limits executed hp _ hn _ =>
    have hx := hw.current_le.trans hw.system_le
    have hframe : Waiting item k first (tr ++ [.execute limits executed]) ctl x last :=
      hw.frame hw.mem rfl rfl id rfl
    exact ⟨x, last, { hframe with
      current_le := hw.current_le.trans hs.1
      system_le := hs.2.trans (limit_le hr hn hw.mem hx)
      passed := by simp }⟩
  | @process y s _ hready hnp =>
    by_cases hid : x.id = y.id
    · obtain rfl := eq_of_readyEvent hready hw.mem (by rw [← hid, hw.id_eq]; omega) hid
      rw [hw.trigger_eq, hperiod] at hnp
      exact absurd hnp (by simp)
    · obtain rfl | hm := list_of_readyEvent hready hw.mem
      · exact absurd rfl hid
      · have hid' : y.id ≠ item.id := fun he => hid (hw.id_eq.trans he.symm)
        exact ⟨x, last, hw.frame (by simpa using hm) (by simp) (by simp) (by simp)
          (if_neg hid')⟩
  | @reprocess y s s' r hp hready _ hsch =>
    by_cases hid : x.id = y.id
    · obtain rfl := eq_of_readyEvent hready hw.mem (by rw [← hid, hw.id_eq]; omega) hid
      exact hw.reprocess hr hperiod hpos hskip hp hready (hs hw.id_eq) hsch
    · obtain rfl | hm := list_of_readyEvent hready hw.mem
      · exact absurd rfl hid
      have hid' : y.id ≠ item.id := fun he => hid (hw.id_eq.trans he.symm)
      rcases list_of_schedule hsch hm with hm | hm
      · exact ⟨x, last, hw.frame hm (by simp) (by simp) (by simp) (if_neg hid')⟩
      · rcases WorkItem.schedule_ok hsch with ⟨k', hc, -, -⟩ | ⟨y', -, rfl, -⟩
        · obtain ⟨k'', hy⟩ := mem_of_readyEvent hready
          simp [hr.wellPlaced.clears k'' y hy] at hc
        · simp [Scheduled.deleted] at hm

theorem Waiting.run (hw : Waiting item k first [] ctl x last) (hr : Reachable ctl)
    (hperiod : item.trigger.isPeriod = true) (hpos : 0 < item.period.toNat)
    (hskip : k = .nanosecond ∨ item.period.toNat ≠ 1)
    (run : Lts.Run (Lts.guarded (Steady item.id k) Step) ctl tr ctl') :
    ∃ x' last', Waiting item k first tr ctl' x' last' := by
  induction run with
  | nil => exact ⟨x, last, hw⟩
  | snoc run h ih =>
    obtain ⟨x', last', hw'⟩ := ih
    exact hw'.step (hr.run run.of_guarded) hperiod hpos hskip h.1 h.2

/-- The counts at which the item was processed are the multiples up to the current count, the
current one excepted until the pass is over. -/
theorem Waiting.processedAt_prefix (hw : Waiting item k first tr ctl x last)
    (hpos : 0 < item.period.toNat) :
    processedAt tr item.id k <+:
        Multiples.between item.period.toNat first (ctl.current.get k).toNat ∧
      (ctl.phase = .inform → processedAt tr item.id k =
        Multiples.between item.period.toNat first (ctl.current.get k).toNat) := by
  have hbefore : (ctl.current.get k).toNat < x.time → processedAt tr item.id k =
      Multiples.between item.period.toNat first (ctl.current.get k).toNat := by
    intro hlt
    rw [hw.processed, Multiples.between_eq hw.last_le]
    intro m h1 h2 hd
    have := Multiples.next_le hd h1
    rw [← hw.time_eq] at this
    omega
  refine ⟨?_, fun hp => hbefore (hw.passed hp)⟩
  rcases Nat.lt_or_eq_of_le (hw.current_le.trans hw.system_le) with hlt | heq
  · rw [hbefore hlt]
  · rw [heq, hw.processed, hw.time_eq, Multiples.between_next hpos hw.first_le]
    exact List.prefix_append _ _

/-! ### The exact condition -/

/-- `Schedule` sets the action time to the least multiple of the period that is greater than the
current count. -/
def SetsNextMultiple (item : WorkItem) (k : CounterKind) (current : Counters) : Prop :=
  ∀ s : Schedule, ∃ item' s', s.schedule item current = .ok (item', s') ∧
    IsLeast {m | item.period.toNat ∣ m ∧ (current.get k).toNat < m} item'.time

/-- From its first scheduling on, the item is processed at the multiples of its period and at no
other count: at all of them up to the current count whenever a pass is over. -/
def ProcessedAtMultiples (item : WorkItem) (k : CounterKind) (current : Counters) : Prop :=
  ∀ ctl₀ ctl₁ x ctl tr, Reachable ctl₀ → ctl₀.current = current →
    Step ctl₀ (.drain item (.placed x)) ctl₁ →
    Lts.Run (Lts.guarded (Steady item.id k) Step) ctl₁ tr ctl →
    processedAt tr item.id k <+:
        Multiples.between item.period.toNat (current.get k).toNat (ctl.current.get k).toNat ∧
      (ctl.phase = .inform → processedAt tr item.id k =
        Multiples.between item.period.toNat (current.get k).toNat (ctl.current.get k).toNat)

variable {current : Counters}

theorem dividend_le {item : WorkItem} (hperiod : item.trigger.isPeriod = true)
    (hk : item.trigger.counter = some k) (current : Counters) :
    dividend item current ≤ (current.get k).toNat + 1 + item.period.toNat := by
  rw [dividend_eq hperiod hk, alignedFrom]
  split_ifs <;> omega

theorem setsNextMultiple_iff (hperiod : item.trigger.isPeriod = true)
    (hk : item.trigger.counter = some k) (hpos : 0 < item.period.toNat)
    (hov : (current.get k).toNat + 1 + item.period.toNat < 2 ^ 64) :
    SetsNextMultiple item k current ↔
      k = .nanosecond ∨ ¬ item.period.toNat ∣ (current.get k).toNat + 1 := by
  have hov' := (dividend_le hperiod hk current).trans_lt hov
  have hleast := Multiples.isLeast_next hpos (current.get k).toNat
  rw [← next_alignedFrom hpos]
  constructor
  · intro h
    obtain ⟨item', s', hs, hmin⟩ := h {}
    obtain ⟨ha, -⟩ := Schedule.schedule_ok_iff.mp hs
    rw [← (alignPeriod_time hperiod hk hov' ha).2]
    exact hmin.unique hleast
  · intro h s
    obtain ⟨item', ha⟩ := alignPeriod_succeeds hperiod hk hpos hov'
    refine ⟨item', _, Schedule.schedule_ok_iff.mpr ⟨ha, k, ?_, rfl⟩, ?_⟩
    · rw [alignPeriod_trigger ha, hk]
    · rwa [(alignPeriod_time hperiod hk hov' ha).2, h]

/-- A scheduled item waits for the first multiple after the count of that time. -/
theorem waiting_of_drain {ctl₀ ctl₁ : LoopState} (hr : Reachable ctl₀)
    (hs : Step ctl₀ (.drain item (.placed x)) ctl₁) (hperiod : item.trigger.isPeriod = true)
    (hk : item.trigger.counter = some k) (hpos : 0 < item.period.toNat)
    (hov : (ctl₀.current.get k).toNat + 1 + item.period.toNat < 2 ^ 64)
    (hnext : k = .nanosecond ∨ ¬ item.period.toNat ∣ (ctl₀.current.get k).toNat + 1) :
    Waiting item k (ctl₀.current.get k).toNat [] ctl₁ x (ctl₀.current.get k).toNat := by
  have hov' := (dividend_le hperiod hk ctl₀.current).trans_lt hov
  cases hs.move with
  | drain hp _ hsch =>
    obtain ⟨k', -, hr', -⟩ | ⟨x', -, hx, hs'⟩ := WorkItem.schedule_ok hsch
    · simp at hr'
    obtain rfl := Scheduled.placed.inj hx
    obtain ⟨ha, k', hk', rfl⟩ := Schedule.schedule_ok_iff.mp hs'
    have hsys : ctl₀.current = ctl₀.system := hr.current_eq (.inl hp)
    have htime := (alignPeriod_time hperiod hk hov' ha).2
    rw [(next_alignedFrom hpos k ctl₀.current).mpr hnext] at htime
    have hlt := Multiples.lt_next hpos (ctl₀.current.get k).toNat
    rw [alignPeriod_trigger ha, hk] at hk'
    obtain rfl := Option.some.inj hk'
    exact {
      mem := by simp [mem_insertOrdered]
      id_eq := alignPeriod_id ha
      trigger_eq := alignPeriod_trigger ha
      period_eq := alignPeriod_period ha
      time_eq := htime
      first_le := le_rfl
      last_le := le_rfl
      current_le := by rw [hsys]
      system_le := by rw [← hsys, htime]; exact hlt.le
      passed := by simp [hp]
      processed := by rw [Multiples.between_eq_nil le_rfl]; rfl }

/-- A periodic item is aligned to the multiple it should be, and processed at all multiples from
there on, exactly unless its formula starts one further and that lands on a multiple. -/
theorem periodic_iff (hperiod : item.trigger.isPeriod = true)
    (hk : item.trigger.counter = some k) (hpos : 0 < item.period.toNat)
    (hov : (current.get k).toNat + 1 + item.period.toNat < 2 ^ 64) :
    SetsNextMultiple item k current ∧ ProcessedAtMultiples item k current ↔
      item.trigger = .nanosecondPeriod ∨ ¬ item.period.toNat ∣ (current.get k).toNat + 1 := by
  have htrig : item.trigger = .nanosecondPeriod ↔ k = .nanosecond := by
    cases ht : item.trigger <;> simp_all [ActionTrigger.isPeriod, ActionTrigger.counter] <;>
      simp [← hk]
  rw [htrig, ← setsNextMultiple_iff hperiod hk hpos hov, and_iff_left_iff_imp]
  rintro hset ctl₀ ctl₁ x ctl tr hr rfl hs run
  have hnext := (setsNextMultiple_iff hperiod hk hpos hov).mp hset
  have hskip : k = .nanosecond ∨ item.period.toNat ≠ 1 :=
    hnext.imp_right fun hd h1 => hd (by rw [h1]; exact one_dvd _)
  have hw := waiting_of_drain hr hs hperiod hk hpos hov hnext
  obtain ⟨x', last, hw'⟩ := hw.run (hr.step hs) hperiod hpos hskip run
  exact hw'.processedAt_prefix hpos

/-- Progress every 10 cycles from cycle 5 on. -/
theorem periodic_from_cycle_five :
    SetsNextMultiple ⟨0, .progress .cycle "", .cyclePeriod, 10, 10⟩ .cycle ⟨0, 5, 0, 0, 0⟩ ∧
      ProcessedAtMultiples ⟨0, .progress .cycle "", .cyclePeriod, 10, 10⟩ .cycle
        ⟨0, 5, 0, 0, 0⟩ :=
  (periodic_iff rfl rfl (by decide) (by decide)).mpr (.inr (by decide))

/-- At cycle 9 the multiple 10 is skipped. -/
theorem not_periodic : ¬ ∀ (item : WorkItem) (k : CounterKind) (current : Counters),
    item.trigger.isPeriod = true → item.trigger.counter = some k → 0 < item.period.toNat →
      (current.get k).toNat + 1 + item.period.toNat < 2 ^ 64 →
        SetsNextMultiple item k current ∧ ProcessedAtMultiples item k current := by
  intro h
  obtain ⟨item', s', hs, hmin⟩ := (h ⟨0, .progress .cycle "", .cyclePeriod, 10, 10⟩ .cycle
    ⟨0, 9, 0, 0, 0⟩ rfl rfl (by decide) (by decide)).1 {}
  have htime : item'.time = 20 := by
    obtain ⟨ha, -⟩ := Schedule.schedule_ok_iff.mp hs
    rw [← Except.ok.inj ha]
    decide
  have := hmin.2 (show (10 : Nat) ∈ _ by decide)
  omega

end Awb.Classic
