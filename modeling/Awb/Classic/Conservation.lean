import Awb.Classic.Ordering

/-! No work item is lost or duplicated. After every run each item that was added is at exactly
one place, an item without period has been processed at most once, and each pass took the items
of a list in order. The last part needs that rescheduling did not overflow. -/

namespace Awb.Classic

/-- The accounting of a run. -/
structure Conserved (tr : List Label) (ctl : LoopState) : Prop where
  /-- On the controller work list, on one of the five lists, processed and deleted, or deleted by
  a progress clear: one of these, once. -/
  located : ∀ item, .arrive item ∈ tr → item.kind.clears = none →
    ctl.ctrlWorkList.countId item.id + ctl.schedule.countId item.id +
      traceCount Label.finished tr item.id + traceCount Label.deleted tr item.id = 1
  own_list : ∀ l ∈ tr, ∀ c k deleted, l.scheduled = some (c, .cleared k deleted) →
    c.kind.clears = some k ∧
      ∀ x ∈ deleted, WorkList.isProgress x = true ∧ x.trigger.counter = some k
  once : ∀ item, .arrive item ∈ tr → item.trigger.isPeriod = false →
    tr.countP (Label.processes item.id) ≤ 1
  in_order : ∀ pre mid post a b ca cb ra rb,
    tr = pre ++ Label.process a ca ra :: (mid ++ Label.process b cb rb :: post) →
    (∀ l ∈ mid, l.inPass) → a.trigger.counter = b.trigger.counter →
    After pre a (pre ++ Label.process a ca ra :: mid) b

variable {current system : Counters} {ctl : LoopState} {tr : List Label}

/-- The items a clear deletes are the progress items of the list it names. -/
theorem Move.cleared {ctl' : LoopState} {l : Label} (h : Move ctl l ctl') {c : WorkItem}
    {k : CounterKind} {deleted : WorkList} (hl : l.scheduled = some (c, .cleared k deleted)) :
    c.kind.clears = some k ∧
      ∀ x ∈ deleted, WorkList.isProgress x = true ∧ x ∈ ctl.schedule.list k := by
  have key : ∀ s s', c.schedule s ctl.current = .ok (.cleared k deleted, s') →
      c.kind.clears = some k ∧ deleted = (s.list k).progressItems := by
    intro s s' hs
    rcases WorkItem.schedule_ok hs with ⟨k', hc, hr, -⟩ | ⟨x, -, hr, -⟩
    · obtain ⟨rfl, rfl⟩ := Scheduled.cleared.inj hr
      exact ⟨hc, rfl⟩
    · simp at hr
  cases h <;> simp only [Label.scheduled, reduceCtorEq, Option.some.injEq, Prod.mk.injEq] at hl
  case drain hs =>
    obtain ⟨rfl, rfl⟩ := hl
    obtain ⟨hc, rfl⟩ := key _ _ hs
    exact ⟨hc, fun x hx => (List.mem_filter.mp hx).symm⟩
  case reprocess hr _ hs =>
    obtain ⟨rfl, rfl⟩ := hl
    obtain ⟨hc, rfl⟩ := key _ _ hs
    exact ⟨hc, fun x hx => ⟨(List.mem_filter.mp hx).2,
      mem_list_of_readyEvent hr (List.mem_filter.mp hx).1⟩⟩

theorem run_own_list (run : Lts.Run Step (start current system) tr ctl) {l : Label} (hl : l ∈ tr)
    {c : WorkItem} {k : CounterKind} {deleted : WorkList}
    (hs : l.scheduled = some (c, .cleared k deleted)) : c.kind.clears = some k ∧
      ∀ x ∈ deleted, WorkList.isProgress x = true ∧ x.trigger.counter = some k := by
  obtain ⟨pre, post, ctl₁, ctl₂, rfl, hpre, hstep, -⟩ := run.exists_step hl
  obtain ⟨hc, hd⟩ := hstep.move.cleared hs
  refine ⟨hc, fun x hx => ?_⟩
  obtain ⟨hp, hk⟩ := hd x hx
  exact ⟨hp, ((wellPlaced_start current system).run hpre).counter k x hk⟩

/-- An item whose `Schedule` method was called had been added. -/
theorem run_scheduled_arrived (run : Lts.Run Step (start current system) tr ctl) {l : Label}
    (hl : l ∈ tr) {c : WorkItem} {r : Scheduled} (hs : l.scheduled = some (c, r)) :
    Arrived tr c := by
  obtain ⟨pre, post, ctl₁, ctl₂, rfl, hpre, hstep, -⟩ := run.exists_step hl
  obtain ⟨a, ha, h⟩ := run_holds_arrived hpre c (hstep.move.scheduled_holds hs)
  exact ⟨a, List.mem_append_left _ ha, h⟩

theorem run_processed_arrived (run : Lts.Run Step (start current system) tr ctl) {b : WorkItem}
    {c : Counters} {r : Option Scheduled} (hl : Label.process b c r ∈ tr) : Arrived tr b := by
  obtain ⟨pre, post, ctl₁, ctl₂, rfl, hpre, hstep, -⟩ := run.exists_step hl
  obtain ⟨k, hk⟩ := hstep.move.process_mem
  obtain ⟨a, ha, h⟩ := run_holds_arrived hpre b (.inr ⟨k, hk⟩)
  exact ⟨a, List.mem_append_left _ ha, h⟩

theorem traceCount_eq_zero {role : Label → WorkList} {id : Nat}
    (h : ∀ l ∈ tr, ∀ x ∈ role l, x.id ≠ id) : traceCount role tr id = 0 := by
  rw [traceCount, WorkList.countId, List.countP_eq_zero]
  intro x hx
  obtain ⟨l, hl, hx⟩ := List.mem_flatMap.mp hx
  simpa using h l hl x hx

theorem run_located (run : Lts.Run Step (start current system) tr ctl) {item : WorkItem}
    (ha : .arrive item ∈ tr) (hc : item.kind.clears = none) :
    ctl.ctrlWorkList.countId item.id + ctl.schedule.countId item.id +
      traceCount Label.finished tr item.id + traceCount Label.deleted tr item.id = 1 := by
  have hclear : traceCount Label.clearing tr item.id = 0 := by
    refine traceCount_eq_zero fun l hl x hx he => ?_
    obtain ⟨k, d, hs⟩ : ∃ k d, l.scheduled = some (x, .cleared k d) := by
      unfold Label.clearing at hx
      split at hx
      · rename_i c k d hs
        exact ⟨k, d, List.mem_singleton.mp hx ▸ hs⟩
      · simp at hx
    obtain ⟨a, ham, hid, hkind, -, -⟩ := run_scheduled_arrived run hl hs
    obtain rfl := run_arrive_unique run ham ha (hid.trans he)
    have := (run_own_list run hl hs).1
    rw [← hkind, hc] at this
    simp at this
  have hone : traceCount Label.arrived tr item.id = 1 := by
    have h1 : 0 < traceCount Label.arrived tr item.id :=
      countId_pos (List.mem_flatMap.mpr ⟨_, ha, List.mem_singleton_self item⟩)
    have h2 := run_arrived run item.id
    split_ifs at h2 <;> omega
  have h := run_countId run item.id
  rw [LoopState.countId] at h
  omega

/-- Steps that each mention an object at least once are no more than its mentions. -/
theorem countP_le_traceCount {role : Label → WorkList} {p : Label → Bool} {id : Nat}
    (h : ∀ l ∈ tr, p l = true → 0 < WorkList.countId (role l) id) :
    tr.countP p ≤ traceCount role tr id := by
  induction tr with
  | nil => simp
  | cons l tr ih =>
    have h1 := ih fun l' hl' => h l' (.tail _ hl')
    have h2 := h l (List.mem_cons_self ..)
    simp only [traceCount, List.flatMap_cons, countId_append] at h1 ⊢
    rw [List.countP_cons]
    split_ifs with hp
    · have := h2 hp
      omega
    · omega

theorem Move.process_none {ctl' : LoopState} {b : WorkItem} {c : Counters} {r : Option Scheduled}
    (h : Move ctl (.process b c r) ctl') (hb : b.trigger.isPeriod = false) : r = none := by
  cases h with
  | process => rfl
  | reprocess _ _ hp _ => simp [hb] at hp

theorem run_once (run : Lts.Run Step (start current system) tr ctl) {item : WorkItem}
    (ha : .arrive item ∈ tr) (hp : item.trigger.isPeriod = false) :
    tr.countP (Label.processes item.id) ≤ 1 := by
  have hle : tr.countP (Label.processes item.id) ≤ traceCount Label.finished tr item.id := by
    refine countP_le_traceCount fun l hl hproc => ?_
    cases l <;> simp only [Label.processes, Bool.false_eq_true, decide_eq_true_eq] at hproc
    case process b c r =>
      obtain ⟨a, ham, hid, -, htrig, -⟩ := run_processed_arrived run hl
      obtain rfl := run_arrive_unique run ham ha (hid.trans hproc)
      obtain ⟨pre, post, ctl₁, ctl₂, rfl, -, hstep, -⟩ := run.exists_step hl
      obtain rfl := hstep.move.process_none (htrig ▸ hp)
      rw [← hproc]
      exact countId_pos (List.mem_singleton_self b)
  have h1 := run_countId run item.id
  have h2 := run_arrived run item.id
  split_ifs at h2 <;> omega

/-- In every run in which no rescheduling overflows, the items are accounted for at every point
and each pass is in order. -/
theorem run_conserved (run : Lts.Run (Lts.guarded NoOverflow Step) (start current system) tr ctl) :
    Conserved tr ctl where
  located _ ha hc := run_located run.of_guarded ha hc
  own_list _ hl _ _ _ hs := run_own_list run.of_guarded hl hs
  once _ ha hp := run_once run.of_guarded ha hp
  in_order _ _ _ _ _ _ _ _ _ htr hmid hab := pass_in_order (htr ▸ run) hmid hab

/-- A statistics item every 2^63 instructions, followed until it is due and twice processed. -/
def overflowInputs : List Input :=
  let zero : Counters := ⟨0, 0, 0, 0, 0⟩
  let due : Counters := ⟨0, 0, 9223372036854775808, 0, 0⟩
  [.command ⟨.emitStats, .instPeriod, 9223372036854775808, by decide⟩,
    .command ⟨.start, .now, 0, Command.zero_of_now⟩, .turn zero, .turn zero, .turn zero, .turn zero,
    .turn zero, .turn zero, .turn due, .turn zero, .turn zero, .turn zero, .turn zero]

/-- The first eleven steps meet the condition: the item has become due. -/
theorem run_conserved_until_due :
    ∃ tr ctl, (start ⟨0, 0, 0, 0, 0⟩ ⟨0, 0, 0, 0, 0⟩).follow NoOverflow
        (overflowInputs.take 11) = some (tr, ctl) ∧ tr.length = 11 ∧ Conserved tr ctl := by
  have h : ((start ⟨0, 0, 0, 0, 0⟩ ⟨0, 0, 0, 0, 0⟩).follow NoOverflow
    (overflowInputs.take 11)).isSome = true := by decide
  exact ⟨_, _, (Option.some_get h).symm, by decide, run_conserved (LoopState.follow_run
    (Option.some_get h).symm)⟩

/-- At 2^63 the sum overflows, and the item is processed again in the same pass, at time 0. -/
theorem not_conserved : ¬ ∀ (current system : Counters) (tr : List Label) (ctl : LoopState),
    Lts.Run Step (start current system) tr ctl → Conserved tr ctl := by
  intro h
  have hsome : ((start ⟨0, 0, 0, 0, 0⟩ ⟨0, 0, 0, 0, 0⟩).follow (fun _ _ => True)
    overflowInputs).isSome = true := by decide
  obtain ⟨⟨tr, ctl⟩, hf⟩ := Option.isSome_iff_exists.mp hsome
  have hc := h _ _ tr ctl (LoopState.follow_run hf).of_guarded
  let due : WorkItem := ⟨0, .emitStats, .instPeriod, 9223372036854775808, 9223372036854775808⟩
  let count : Counters := ⟨0, 0, 9223372036854775808, 0, 0⟩
  let past : WorkItem := ⟨0, .emitStats, .instPeriod, 0, 9223372036854775808⟩
  have htr : tr = tr.take 11 ++ Label.process due count (some (.placed past)) ::
      ([] ++ Label.process past count (some (.placed past)) :: []) := by
    have hget : tr = (((start ⟨0, 0, 0, 0, 0⟩ ⟨0, 0, 0, 0, 0⟩).follow (fun _ _ => True)
      overflowInputs).get hsome).1 := by simp [hf]
    rw [hget]
    rfl
  rcases hc.in_order _ _ _ _ _ _ _ _ _ htr (by simp) rfl with h1 | ⟨h1, -⟩
  · exact absurd h1 (by decide)
  · exact absurd h1 (by decide)

end Awb.Classic
