import Awb.Classic.Reachable

/-! The checks of `ReadyEvent` and `Schedule`. They pass as long as no request is for a cycle or
nanosecond already past and no period is so great that the aligned time wraps to one. -/

namespace Awb.Classic

/-- The system was not let past the count it was given, and no command has `ACTION_NEVER`. -/
def Label.Honours : Label → Prop
  | .execute limits executed => ∀ k, (executed.get k).toNat ≤ (limits.get k).toNat
  | .arrive item => item.trigger ≠ .never
  | _ => True

/-- The count the item is scheduled at is early enough for its request. A period of 0 is not
looked at by any check. -/
def WorkItem.InTime (item : WorkItem) (current : Counters) : Prop :=
  match item.trigger with
  | .cycleOnce => current.cycle.toNat ≤ item.time
  | .nanosecondOnce => current.nanosecond.toNat ≤ item.time
  | .cyclePeriod | .nanosecondPeriod => item.period = 0 ∨ dividend item current < 2 ^ 64
  | .instPeriod => ¬ (item.period.toNat = 2 ^ 64 - 1 ∧ item.period.toNat ∣ current.inst.toNat)
  | .macroInstPeriod =>
    ¬ (item.period.toNat = 2 ^ 64 - 1 ∧ item.period.toNat ∣ current.macroInst.toNat)
  | _ => True

/-- The items the next step can schedule are in time: the next command, or a periodic item that
is due. -/
structure InTime (ctl : LoopState) : Prop where
  command : ctl.phase = .drain → ∀ item ∈ ctl.ctrlWorkList.head?, item.InTime ctl.current
  due : ctl.phase = .ready → ∀ k, ∀ item ∈ (ctl.schedule.list k).head?,
    item.trigger.isPeriod = true → item.time ≤ (ctl.current.get k).toNat → item.InTime ctl.current

/-- No check fails in the next step: the head of each list is ready now or lies strictly in the
future, and an item is put on the list of its trigger at a time other than now. -/
structure ChecksPass (ctl : LoopState) : Prop where
  head : ctl.phase = .ready → ∀ k, ∀ item ∈ (ctl.schedule.list k).head?,
    Schedule.isReady k item (ctl.current.get k) = true ∨
      Schedule.isFuture k item (ctl.current.get k) = true
  step : ∀ executed, loopStep ctl executed ≠ .error .readyEvent ∧
    loopStep ctl executed ≠ .error .schedule

instance (l : Label) : Decidable l.Honours := by
  unfold Label.Honours
  split <;> infer_instance

instance (item : WorkItem) (current : Counters) : Decidable (item.InTime current) := by
  unfold WorkItem.InTime
  split <;> infer_instance

instance (ctl : LoopState) : Decidable (InTime ctl) :=
  decidable_of_iff ((ctl.phase = .drain → ∀ item ∈ ctl.ctrlWorkList.head?,
      item.InTime ctl.current) ∧ (ctl.phase = .ready → ∀ k, ∀ item ∈ (ctl.schedule.list k).head?,
        item.trigger.isPeriod = true → item.time ≤ (ctl.current.get k).toNat →
          item.InTime ctl.current))
    ⟨fun h => ⟨h.1, h.2⟩, fun h => ⟨h.1, h.2⟩⟩

/-- The steps that keep to the contract of the loop. -/
def Admissible (ctl : LoopState) (l : Label) : Prop := InTime ctl ∧ l.Honours

instance (ctl : LoopState) (l : Label) : Decidable (Admissible ctl l) :=
  inferInstanceAs (Decidable (_ ∧ _))

variable {ctl ctl' : LoopState} {l : Label} {tr : List Label} {item x : WorkItem} {k : CounterKind}

/-- A wrapped sum is no greater than the count, and the multiple below it is the count only for
the greatest period. -/
theorem wrapped_align {c p : Nat} (hp : p < 2 ^ 64)
    (h : (c + 1 + p - 2 ^ 64) / p * p = c) (hw : 2 ^ 64 ≤ c + 1 + p) :
    p = 2 ^ 64 - 1 ∧ p ∣ c := by
  have hle := Nat.div_mul_le_self (c + 1 + p - 2 ^ 64) p
  exact ⟨by omega, h ▸ Nat.dvd_mul_left ..⟩

theorem toNat_align_wrapped {n p : Nat} (hn : 2 ^ 64 ≤ n) (hn' : n - 2 ^ 64 < 2 ^ 64)
    (hp : p < 2 ^ 64) :
    (UInt64.ofNat n / UInt64.ofNat p * UInt64.ofNat p).toNat = (n - 2 ^ 64) / p * p := by
  have h : UInt64.ofNat n = .ofNat (n - 2 ^ 64) := by
    apply UInt64.toNat_inj.mp
    rw [UInt64.toNat_ofNat', UInt64.toNat_ofNat', Nat.mod_eq_sub_mod hn]
  rw [h, toNat_align hn' hp]

/-- The alignment of an item in time does not end up at the current count. -/
theorem alignPeriod_ne_schedule {current : Counters} (h : item.InTime current) :
    Schedule.alignPeriod item current ≠ .error .schedule := by
  cases hp : item.trigger.isPeriod
  · rw [Schedule.alignPeriod_of_not_isPeriod hp]
    simp
  obtain ⟨k, hk⟩ : ∃ k, item.trigger.counter = some k := by
    cases ht : item.trigger <;> simp_all [ActionTrigger.isPeriod, ActionTrigger.counter]
  by_cases hz : item.period = 0
  · rw [alignPeriod_eq hp hk, Schedule.align, if_pos hz]
    simp
  have hpos : 0 < item.period.toNat := Nat.pos_of_ne_zero fun h0 => hz (UInt64.toNat_inj.mp h0)
  by_cases hov : dividend item current < 2 ^ 64
  · obtain ⟨x, hx⟩ := alignPeriod_succeeds hp hk hpos hov
    rw [hx]
    simp
  -- only the instruction counts allow a sum that wraps
  have hinst : k ≠ .nanosecond ∧
      ¬ (item.period.toNat = 2 ^ 64 - 1 ∧ item.period.toNat ∣ (current.get k).toNat) := by
    unfold WorkItem.InTime at h
    cases ht : item.trigger <;> simp_all [ActionTrigger.isPeriod, ActionTrigger.counter] <;>
      subst hk <;> simpa [Counters.get] using h
  have hd := dividend_eq hp hk current
  rw [alignedFrom, if_neg hinst.1] at hd
  have hclt := (current.get k).toNat_lt
  have hplt := item.period.toNat_lt
  rw [alignPeriod_eq hp hk, Schedule.align, if_neg hz]
  split_ifs with hc
  · rw [not_lt, hd] at hov
    have ht := toNat_align_wrapped hov (by omega) hplt
    rw [← hd, UInt64.ofNat_toNat, hc, hd] at ht
    exact absurd (wrapped_align hplt ht.symm hov) hinst.2
  · simp

theorem schedule_ne_schedule {s : Schedule} {current : Counters} (h : item.InTime current)
    (hn : item.trigger ≠ .never) : item.schedule s current ≠ .error .schedule := by
  unfold WorkItem.schedule
  split
  · simp
  · cases ha : Schedule.alignPeriod item current with
    | error f =>
      have hf : f ≠ .schedule := fun hf => alignPeriod_ne_schedule h (hf ▸ ha)
      simpa [Schedule.schedule, ha, bind, Except.bind] using hf
    | ok x =>
      obtain ⟨k, hk⟩ : ∃ k, item.trigger.counter = some k := by
        cases ht : item.trigger <;> simp_all [ActionTrigger.counter]
      rw [← alignPeriod_trigger ha] at hk
      rw [Schedule.schedule_ok_iff.mpr ⟨ha, k, hk, rfl⟩]
      simp

theorem schedule_ne_readyEvent {s : Schedule} {current : Counters} :
    item.schedule s current ≠ .error .readyEvent := by
  unfold WorkItem.schedule Schedule.schedule
  split
  · simp
  · cases ha : Schedule.alignPeriod item current with
    | error f =>
      rcases Schedule.alignPeriod_error ha with rfl | rfl <;> simp [bind, Except.bind]
    | ok x => cases hc : x.trigger.counter <;> simp [bind, Except.bind, hc]

/-- An item that is placed in time is not behind the count of its list, where that matters. -/
theorem le_time_of_inTime {current : Counters} (h : item.InTime current)
    (ha : Schedule.alignPeriod item current = .ok x) (hk : x.trigger.counter = some k)
    (hkind : k = .cycle ∨ k = .nanosecond) :
    x.trigger = .now ∨ (current.get k).toNat ≤ x.time := by
  cases hp : item.trigger.isPeriod
  · rw [Schedule.alignPeriod_of_not_isPeriod hp, Except.ok.injEq] at ha
    subst ha
    cases ht : item.trigger <;> simp only [WorkItem.InTime, ht] at h <;> rw [ht] at hk hp
    case cycleOnce | nanosecondOnce => exact .inr (Option.some.inj hk ▸ h)
    case now => exact .inl rfl
    case instOnce | macroInstOnce | packetOnce =>
      exact absurd (Option.some.inj hk ▸ hkind) (by decide)
    case never => exact absurd hk (by simp [ActionTrigger.counter])
    all_goals exact absurd hp (by decide)
  · rw [alignPeriod_trigger ha] at hk
    have hz : item.period ≠ 0 := by
      rw [alignPeriod_eq hp hk] at ha
      exact (Schedule.align_ok ha).1
    have hov : dividend item current < 2 ^ 64 := by
      unfold WorkItem.InTime at h
      cases ht : item.trigger <;>
        simp_all [ActionTrigger.isPeriod, ActionTrigger.counter]
      all_goals simp [← hk] at hkind
    exact .inr (alignPeriod_lt_time hp hk hov ha).le

/-- The invariant of the loop: on the lists that must be met exactly nothing is behind the
system, and at the end of a pass everything waits for a later count. -/
structure NothingPast (ctl : LoopState) : Prop where
  queued : ∀ x ∈ ctl.ctrlWorkList, x.trigger ≠ .never
  waiting : ∀ k, k = .cycle ∨ k = .nanosecond → ∀ x ∈ ctl.schedule.list k,
    x.trigger = .now ∨ (ctl.system.get k).toNat ≤ x.time
  passed : ctl.phase = .inform → ∀ k, ∀ x ∈ ctl.schedule.list k,
    (ctl.current.get k).toNat < x.time

theorem nothingPast_start (current system : Counters) : NothingPast (start current system) := by
  constructor <;> simp [start]

/-- What a step can place is in time, if its state is. -/
theorem Move.scheduled_inTime {ctl ctl' : LoopState} {l : Label} (h : Move ctl l ctl')
    (hr : Reachable ctl) (ht : InTime ctl) {r : Scheduled}
    (hl : l.scheduled = some (item, r)) :
    item.InTime ctl.current ∧ ctl.current = ctl.system ∧ ctl'.phase ≠ .inform := by
  cases h <;> simp only [Label.scheduled, reduceCtorEq, Option.some.injEq, Prod.mk.injEq] at hl
  case drain hp hw _ =>
    obtain ⟨rfl, -⟩ := hl
    exact ⟨ht.command hp _ (by simp [hw]), hr.current_eq (.inl hp), by simp [hp]⟩
  case reprocess hp hready hper _ =>
    obtain ⟨rfl, -⟩ := hl
    obtain ⟨k, rest, hlist, hdue, -⟩ := Schedule.readyEvent_some hready
    have hz := hr.wellPlaced.nowZero _ (.inr ⟨k, hlist ▸ List.mem_cons_self ..⟩)
    exact ⟨ht.due hp k _ (by simp [hlist]) hper (time_le_of_isReady hz hdue),
      hr.current_eq (.inr (.inl hp)), by simp [hp]⟩

/-- Only the execution changes the counts of the system. -/
theorem Move.system_eq (h : Move ctl l ctl') : ctl'.system = ctl.system ∨
    ∃ limits, ctl.phase = .inform ∧ ctl.nextEvents = .ok limits ∧
      l = .execute limits ctl'.system := by
  cases h
  case execute limits executed hp _ hn _ => exact .inr ⟨limits, hp, hn, rfl⟩
  case process | reprocess => exact .inl (by simp)
  all_goals exact .inl rfl

theorem NothingPast.step (hn : NothingPast ctl) (hr : Reachable ctl) (ha : Admissible ctl l)
    (h : Step ctl l ctl') : NothingPast ctl' := by
  have hm := h.move
  refine ⟨fun x hx => ?_, fun k hk x hx => ?_, fun hp k x hx => ?_⟩
  · rcases hm.mem_ctrlWorkList hx with hx | ⟨c, -, rfl⟩
    · exact hn.queued x hx
    · exact ha.2
  · rcases hm.system_eq with hsys | ⟨limits, hp, hlim, rfl⟩ <;>
      rcases hm.mem_list hx with hx' | ⟨item, hl, -, hc, hal⟩
    · exact hsys ▸ hn.waiting k hk x hx'
    · obtain ⟨hin, hcur, -⟩ := hm.scheduled_inTime hr ha.1 hl
      rw [hsys, ← hcur]
      exact le_time_of_inTime hin hal hc hk
    · exact .inr ((ha.2 k).trans (limit_le hr hlim hx' (hn.passed hp k x hx').le))
    · simp [Label.scheduled] at hl
  · cases hm with
    | arrive => exact hn.passed hp k x hx
    | idle _ hready => exact lt_time_of_idle hr hready hx
    | drain hd => simp [hd] at hp
    | process hd => simp [hd] at hp
    | reprocess hd => simp [hd] at hp
    | sample | leave | drained | wait | execute => simp at hp

theorem run_nothingPast {current system : Counters}
    (run : Lts.Run (Lts.guarded Admissible Step) (start current system) tr ctl) :
    NothingPast ctl := by
  induction run with
  | nil => exact nothingPast_start current system
  | snoc run h ih => exact ih.step ⟨current, system, _, run.of_guarded⟩ h.1 h.2

theorem waitsOn_of_counter {t : ActionTrigger} (h : t.counter = some k) :
    t = .now ∧ k = .cycle ∨ Schedule.waitsOn k t = true := by
  cases t with
  | never => exact absurd h (by simp [ActionTrigger.counter])
  | now => exact .inl ⟨rfl, (Option.some.inj h).symm⟩
  | _ =>
    obtain rfl := Option.some.inj h
    exact .inr rfl

/-- On a list that must be met exactly, an item that is not past is due now or later. -/
theorem isReady_or_isFuture (hn : NothingPast ctl) (hr : Reachable ctl) (hp : ctl.phase = .ready)
    (hx : x ∈ ctl.schedule.list k) : Schedule.isReady k x (ctl.current.get k) = true ∨
      Schedule.isFuture k x (ctl.current.get k) = true := by
  have hpast := hn.waiting k
  rw [← hr.current_eq (.inr (.inl hp))] at hpast
  rcases waitsOn_of_counter (hr.wellPlaced.counter k x hx) with ⟨ht, rfl⟩ | hw
  · exact .inl (by simp [Schedule.isReady, ht])
  have hlt : ctl.current.get k < x.actionTime → Schedule.isFuture k x (ctl.current.get k) = true :=
    fun h => by simp [Schedule.isFuture, hw, h]
  have hcmp := Nat.lt_or_ge (ctl.current.get k).toNat x.time |>.symm
  cases k with
  | cycle | nanosecond =>
    rcases hpast (by simp) x hx with ht | hle
    · exact .inl (by simp [Schedule.isReady, ht])
    · rcases Nat.lt_or_eq_of_le hle with h | h
      · exact .inr (hlt (UInt64.lt_iff_toNat_lt.mpr h))
      · exact .inl (by simp [Schedule.isReady, hw, (UInt64.toNat_inj.mp h).symm])
  | inst | macroInst | packet =>
    rcases hcmp with h | h
    · exact .inl (by simpa [Schedule.isReady, hw] using UInt64.le_iff_toNat_le.mpr h)
    · exact .inr (hlt (UInt64.lt_iff_toNat_lt.mpr h))

/-- In every run whose steps are admissible, no check of `ReadyEvent` or `Schedule` fails. -/
theorem run_checksPass {current system : Counters}
    (run : Lts.Run (Lts.guarded Admissible Step) (start current system) tr ctl)
    (ht : InTime ctl) : ChecksPass ctl := by
  have hn := run_nothingPast run
  have hr : Reachable ctl := ⟨current, system, tr, run.of_guarded⟩
  have hhead : ctl.phase = .ready → ∀ k, ∀ item ∈ (ctl.schedule.list k).head?,
      Schedule.isReady k item (ctl.current.get k) = true ∨
        Schedule.isFuture k item (ctl.current.get k) = true :=
    fun hp k item hi => isReady_or_isFuture hn hr hp (List.mem_of_mem_head? hi)
  have hfault : ∀ executed f, loopStep ctl executed = .error f →
      f ≠ .readyEvent ∧ f ≠ .schedule := by
    intro executed f h
    rcases loopStep_error h with ⟨hp, item, rest, hw, hs⟩ | ⟨hp, hready⟩ |
      ⟨hp, item, s, hready, hper, hs⟩ | rfl | rfl
    · have hin := ht.command hp item (by simp [hw])
      have hnever := hn.queued item (by simp [hw])
      exact ⟨fun hf => schedule_ne_readyEvent (hf ▸ hs),
        fun hf => schedule_ne_schedule hin hnever (hf ▸ hs)⟩
    · obtain ⟨k, head, rest, hl, hnr, hnf⟩ := Schedule.readyEvent_error hready
      rcases hhead hp k head (by simp [hl]) with h' | h'
      · simp [hnr] at h'
      · simp [hnf] at h'
    · obtain ⟨k, rest, hl, hdue, -⟩ := Schedule.readyEvent_some hready
      have hmem : item ∈ ctl.schedule.list k := hl ▸ List.mem_cons_self ..
      have hin := ht.due hp k item (by simp [hl]) hper
        (time_le_of_isReady (hr.wellPlaced.nowZero item (.inr ⟨k, hmem⟩)) hdue)
      have hnever : item.trigger ≠ .never := fun h' => by simp [h', ActionTrigger.isPeriod] at hper
      exact ⟨fun hf => schedule_ne_readyEvent (hf ▸ hs),
        fun hf => schedule_ne_schedule hin hnever (hf ▸ hs)⟩
    · exact ⟨by simp, by simp⟩
    · exact ⟨by simp, by simp⟩
  exact ⟨hhead, fun executed =>
    ⟨fun h => (hfault executed _ h).1 rfl, fun h => (hfault executed _ h).2 rfl⟩⟩

/-- The system executes up to cycle 5; then progress is requested at one cycle and at every tenth. -/
def lateInputs (cycle : UInt64) : List Input :=
  let zero : Counters := ⟨0, 0, 0, 0, 0⟩
  let five : Counters := ⟨0, 5, 0, 0, 0⟩
  [.command ⟨.start, .now, 0, Command.zero_of_now⟩, .turn zero, .turn zero, .turn zero,
    .turn zero, .turn zero, .turn five, .command ⟨.progress .cycle "", .cyclePeriod, 10, by decide⟩,
    .command ⟨.progress .cycle "", .cycleOnce, cycle, by simp⟩, .turn five, .turn five,
    .turn five, .turn five]

theorem run_checksPass_cycle_five : ∃ tr ctl, (start ⟨0, 0, 0, 0, 0⟩ ⟨0, 0, 0, 0, 0⟩).follow
    Admissible (lateInputs 5) = some (tr, ctl) ∧ tr.length = 13 ∧ ctl.phase = .ready ∧
      ChecksPass ctl := by
  have h : ((start ⟨0, 0, 0, 0, 0⟩ ⟨0, 0, 0, 0, 0⟩).follow Admissible
    (lateInputs 5)).isSome = true := by decide
  exact ⟨_, _, (Option.some_get h).symm, by decide, by decide,
    run_checksPass (LoopState.follow_run (Option.some_get h).symm) (by decide)⟩

/-- At cycle 5 progress is requested at cycle 3: the head of the cycle list lies in the past. -/
theorem not_checksPass : ¬ ∀ (current system : Counters) (tr : List Label) (ctl : LoopState),
    Lts.Run (Lts.guarded (fun _ l => l.Honours) Step) (start current system) tr ctl →
      ChecksPass ctl := by
  intro h
  have hsome : ((start ⟨0, 0, 0, 0, 0⟩ ⟨0, 0, 0, 0, 0⟩).follow (fun _ l => l.Honours)
    (lateInputs 3)).isSome = true := by decide
  have hc := h _ _ _ _ (LoopState.follow_run (Option.some_get hsome).symm)
  exact (hc.step ⟨0, 5, 0, 0, 0⟩).1 (by decide)

end Awb.Classic
