import Awb.Classic.Alignment

/-! The order in which items are processed. Each list is ordered by action time, and at one
time by when the items were last scheduled; a pass of the loop takes them in that order as long
as rescheduling does not overflow. -/

namespace Awb.Classic

/-- The object a step puts on the schedule. -/
def Label.places (l : Label) : Option Nat :=
  match l.scheduled with
  | some (_, .placed x) => some x.id
  | _ => none

def stampFrom (id : Nat) : Nat → Nat → List Label → Nat
  | _, last, [] => last
  | n, last, l :: tr => stampFrom id (n + 1) (if l.places = some id then n + 1 else last) tr

/-- The number of steps up to the last one that scheduled an object. -/
def stamp (tr : List Label) (id : Nat) : Nat := stampFrom id 0 0 tr

theorem stampFrom_append_singleton (id n last : Nat) (tr : List Label) (l : Label) :
    stampFrom id n last (tr ++ [l]) =
      if l.places = some id then n + tr.length + 1 else stampFrom id n last tr := by
  induction tr generalizing n last with
  | nil => simp [stampFrom]
  | cons a tr ih =>
    rw [List.cons_append, stampFrom, ih, List.length_cons, stampFrom]
    split_ifs <;> first | rfl | omega

theorem stamp_append_singleton (tr : List Label) (l : Label) (id : Nat) :
    stamp (tr ++ [l]) id = if l.places = some id then tr.length + 1 else stamp tr id := by
  rw [stamp, stampFrom_append_singleton, Nat.zero_add, stamp]

theorem stamp_le_length (tr : List Label) (id : Nat) : stamp tr id ≤ tr.length := by
  induction tr using List.reverseRecOn with
  | nil => exact Nat.le_refl 0
  | append_singleton tr l ih =>
    rw [stamp_append_singleton, List.length_append, List.length_singleton]
    split_ifs <;> omega

theorem stamp_le_append_singleton (tr : List Label) (l : Label) (id : Nat) :
    stamp tr id ≤ stamp (tr ++ [l]) id := by
  have h := stamp_le_length tr id
  rw [stamp_append_singleton]
  split_ifs <;> omega

/-- Order of action time, then of scheduling. -/
def Before (tr : List Label) : WorkItem → WorkItem → Prop :=
  StableInsert.Before WorkItem.time fun x => stamp tr x.id

def Ordered (tr : List Label) (s : Schedule) : Prop := ∀ k, (s.list k).Pairwise (Before tr)

/-- A step leaves the order of items it does not place. -/
theorem Before.append_singleton {tr : List Label} {l : Label} {a b : WorkItem}
    (h : Before tr a b) (ha : l.places ≠ some a.id) : Before (tr ++ [l]) a b := by
  refine h.imp id fun ⟨h1, h2⟩ => ⟨h1, ?_⟩
  have hb := stamp_le_append_singleton tr l b.id
  simp only [stamp_append_singleton tr l a.id, if_neg ha]
  exact lt_of_lt_of_le h2 hb

theorem Ordered.append_singleton {tr : List Label} {s : Schedule} (h : Ordered tr s) {l : Label}
    (hl : ∀ k, ∀ x ∈ s.list k, l.places ≠ some x.id) : Ordered (tr ++ [l]) s :=
  fun k => (h k).imp_of_mem fun ha _ hab => hab.append_singleton (hl k _ ha)

theorem Ordered.setList {tr : List Label} {s : Schedule} (h : Ordered tr s) {k : CounterKind}
    {l : WorkList} (hl : l.Pairwise (Before tr)) : Ordered tr (s.setList k l) := by
  intro k'
  rw [Schedule.list_setList]
  split_ifs with hk
  · exact hl
  · exact h k'

theorem countId_eq_zero {s : Schedule} {id : Nat} (h : s.countId id = 0) (k : CounterKind) :
    ∀ x ∈ s.list k, x.id ≠ id := by
  intro x hx he
  have h1 := countId_pos hx
  have h2 := s.countId_list_le k x.id
  rw [he] at h1 h2
  omega

/-- Scheduling an item that is on no list keeps the lists in order. -/
theorem ordered_of_schedule {tr : List Label} {item : WorkItem} {s s' : Schedule}
    {current : Counters} {r : Scheduled} {l : Label} (ho : Ordered tr s)
    (hnew : s.countId item.id = 0) (h : item.schedule s current = .ok (r, s'))
    (hl : l.scheduled = some (item, r)) : Ordered (tr ++ [l]) s' := by
  rcases WorkItem.schedule_ok h with ⟨k, -, rfl, rfl⟩ | ⟨x, -, rfl, hs⟩
  · have hn : l.places = none := by simp [Label.places, hl]
    exact (ho.setList ((ho k).filter _)).append_singleton fun _ _ _ => by simp [hn]
  · obtain ⟨ha, k, -, rfl⟩ := Schedule.schedule_ok_iff.mp hs
    have hid := alignPeriod_id ha
    have hp : l.places = some x.id := by simp [Label.places, hl]
    have ho' : Ordered (tr ++ [l]) s := ho.append_singleton fun k y hy he => by
      rw [hp, hid] at he
      exact countId_eq_zero hnew k y hy (Option.some.inj he).symm
    refine ho'.setList (StableInsert.insert_pairwise (ho' k) fun y hy => ?_)
    have hy' : l.places ≠ some y.id := by
      rw [hp, hid]
      exact fun he => countId_eq_zero hnew k y hy (Option.some.inj he).symm
    have := stamp_le_length tr y.id
    simp only [stamp_append_singleton, if_pos hp, if_neg hy']
    omega

theorem Move.ordered {ctl ctl' : LoopState} {l : Label} {tr : List Label} (h : Move ctl l ctl')
    (ho : Ordered tr ctl.schedule) (hone : ∀ id, ctl.countId id ≤ 1) :
    Ordered (tr ++ [l]) ctl'.schedule := by
  cases h with
  | arrive | sample | leave | drained | idle | wait | execute =>
    exact ho.append_singleton fun _ _ _ => by simp [Label.places, Label.scheduled]
  | @drain item rest r s _ hw hs =>
    have h1 := hone item.id
    have h2 : 0 < ctl.ctrlWorkList.countId item.id := countId_pos (hw ▸ List.mem_cons_self ..)
    rw [LoopState.countId] at h1
    exact ordered_of_schedule ho (by omega) hs rfl
  | @process item s _ hr _ =>
    obtain ⟨k, rest, hl, -, rfl⟩ := Schedule.readyEvent_some hr
    rw [cmdAction_schedule]
    exact (ho.setList (List.Pairwise.of_cons (hl ▸ ho k))).append_singleton fun _ _ _ => by
      simp [Label.places, Label.scheduled]
  | @reprocess item s s' r _ hr _ hs =>
    have h1 := hone item.id
    have h2 := countId_of_readyEvent hr item.id
    have h3 := countId_pos (List.mem_singleton_self item)
    rw [LoopState.countId] at h1
    obtain ⟨k, rest, hl, -, rfl⟩ := Schedule.readyEvent_some hr
    exact ordered_of_schedule (ho.setList (List.Pairwise.of_cons (hl ▸ ho k))) (by omega) hs rfl

theorem run_ordered {current system : Counters} {ctl : LoopState} {tr : List Label}
    (run : Lts.Run Step (start current system) tr ctl) : Ordered tr ctl.schedule := by
  induction run with
  | nil => intro k; simp [start]
  | snoc run h ih => exact h.move.ordered ih fun id => run_countId_le run id

/-- The steps within one pass over the ready items: processing them, while commands arrive. -/
def Label.inPass : Label → Prop
  | .process .. | .arrive _ => True
  | _ => False

/-- Rescheduling a processed item does not overflow. -/
def NoOverflow (ctl : LoopState) : Label → Prop
  | .process item _ (some _) => dividend item ctl.current < 2 ^ 64
  | _ => True

instance (ctl : LoopState) (l : Label) : Decidable (NoOverflow ctl l) := by
  unfold NoOverflow
  split <;> infer_instance

/-- The item comes after `a`, which was processed at the end of `pre`. -/
def After (pre : List Label) (a : WorkItem) (tr : List Label) (x : WorkItem) : Prop :=
  a.time < x.time ∨ a.time = x.time ∧ stamp pre a.id < stamp tr x.id

theorem After.append_singleton {pre tr : List Label} {a x : WorkItem} (h : After pre a tr x)
    (l : Label) : After pre a (tr ++ [l]) x :=
  h.imp id fun ⟨h1, h2⟩ => ⟨h1, h2.trans_le (stamp_le_append_singleton tr l x.id)⟩

/-- A rescheduled item comes after everything that is due now. -/
theorem after_of_placed {pre tr : List Label} {a item x : WorkItem} {ctl ctl' : LoopState}
    {l : Label} {k : CounterKind} (h : Move ctl l ctl') (hl : l.inPass) (hov : NoOverflow ctl l)
    (ha : a.time ≤ (ctl.current.get k).toNat) (hs : l.scheduled = some (item, .placed x))
    (hk : x.trigger.counter = some k) (hal : Schedule.alignPeriod item ctl.current = .ok x) :
    After pre a tr x := by
  cases h <;> simp only [Label.scheduled, reduceCtorEq, Option.some.injEq, Prod.mk.injEq] at hs
  case drain => exact hl.elim
  case reprocess hp _ =>
    obtain ⟨rfl, rfl⟩ := hs
    rw [alignPeriod_trigger hal] at hk
    exact .inl (ha.trans_lt (alignPeriod_lt_time hp hk hov hal))

theorem Move.current_of_inPass {ctl ctl' : LoopState} {l : Label} (h : Move ctl l ctl')
    (hl : l.inPass) : ctl'.current = ctl.current := by
  cases h <;> first | exact hl.elim | rfl | simp

/-- During the rest of the pass every item of the list comes after one processed before. -/
theorem pass_after {pre : List Label} {a : WorkItem} {k : CounterKind} {ctl ctl' : LoopState}
    {tr mid : List Label} (hstart : ∀ x ∈ ctl.schedule.list k, After pre a tr x)
    (ha : a.time ≤ (ctl.current.get k).toNat)
    (run : Lts.Run (Lts.guarded NoOverflow Step) ctl mid ctl') (hmid : ∀ l ∈ mid, l.inPass) :
    (∀ x ∈ ctl'.schedule.list k, After pre a (tr ++ mid) x) ∧ ctl'.current = ctl.current := by
  induction run with
  | nil => simpa using hstart
  | @snoc mid ctl₁ ctl₂ l run h ih =>
    obtain ⟨hx, hc⟩ := ih fun l' hl' => hmid l' (List.mem_append_left _ hl')
    have hl : l.inPass := hmid l (by simp)
    refine ⟨fun x hx' => ?_, (h.2.move.current_of_inPass hl).trans hc⟩
    rw [← List.append_assoc]
    rcases h.2.move.mem_list hx' with hx' | ⟨item, hs, -, hk, hal⟩
    · exact (hx x hx').append_singleton l
    · exact after_of_placed h.2.move hl h.1 (hc ▸ ha) hs hk hal

/-- What is left on the list of an item that has just been processed comes after it. -/
theorem after_process {tr : List Label} {a : WorkItem} {ca : Counters} {ra : Option Scheduled} {k : CounterKind}
    {ctl ctl' : LoopState} (h : Move ctl (.process a ca ra) ctl')
    (hov : NoOverflow ctl (.process a ca ra)) (hw : WellPlaced ctl) (ho : Ordered tr ctl.schedule)
    (hk : a.trigger.counter = some k) : a.time ≤ (ctl.current.get k).toNat ∧
      ∀ x ∈ ctl'.schedule.list k, After tr a (tr ++ [.process a ca ra]) x := by
  have key : ∀ s, ctl.schedule.readyEvent ctl.current = .ok (some (a, s)) →
      a.time ≤ (ctl.current.get k).toNat ∧ ∀ x ∈ s.list k, After tr a tr x := by
    intro s hr
    obtain ⟨k', rest, hl, hready, rfl⟩ := Schedule.readyEvent_some hr
    have ha : a ∈ ctl.schedule.list k' := hl ▸ List.mem_cons_self ..
    obtain rfl : k' = k := Option.some.inj ((hw.counter k' a ha).symm.trans hk)
    refine ⟨time_le_of_isReady (hw.nowZero a (.inr ⟨k', ha⟩)) hready, fun x hx => ?_⟩
    rw [Schedule.list_setList_self] at hx
    exact (List.pairwise_cons.mp (hl ▸ ho k')).1 x hx
  cases h with
  | @process _ s _ hr _ =>
    obtain ⟨hle, hrest⟩ := key s hr
    refine ⟨hle, fun x hx => ?_⟩
    rw [cmdAction_schedule] at hx
    exact (hrest x hx).append_singleton _
  | @reprocess _ s s' r _ hr hp hs =>
    obtain ⟨hle, hrest⟩ := key s hr
    refine ⟨hle, fun x hx => ?_⟩
    rcases mem_list_of_schedule hs hx with hx | ⟨rfl, -, hk', hal⟩
    · exact (hrest x hx).append_singleton _
    · rw [alignPeriod_trigger hal] at hk'
      exact .inl (hle.trans_lt (alignPeriod_lt_time hp hk' hov hal))

/-- The item a step processes was on the list of its trigger. -/
theorem Move.process_mem {ctl ctl' : LoopState} {b : WorkItem} {cb : Counters} {rb : Option Scheduled}
    (h : Move ctl (.process b cb rb) ctl') : ∃ k, b ∈ ctl.schedule.list k := by
  cases h with
  | process _ hr _ => exact mem_of_readyEvent hr
  | reprocess _ hr _ _ => exact mem_of_readyEvent hr

/-- Two items of one list that are processed in one pass come in the order of their times, and
at one time in the order in which they were scheduled. -/
theorem pass_in_order {current system : Counters} {ctl : LoopState} {pre mid post : List Label}
    {a b : WorkItem} {ca cb : Counters} {ra rb : Option Scheduled}
    (run : Lts.Run (Lts.guarded NoOverflow Step) (start current system)
      (pre ++ Label.process a ca ra :: (mid ++ Label.process b cb rb :: post)) ctl)
    (hmid : ∀ l ∈ mid, l.inPass) (hab : a.trigger.counter = b.trigger.counter) :
    After pre a (pre ++ Label.process a ca ra :: mid) b := by
  obtain ⟨ctl₁, run₁, run₂⟩ := run.split
  obtain ⟨ctl₂, ⟨hov, ha⟩, run₃⟩ := run₂.cons_inv
  obtain ⟨ctl₃, run₄, run₅⟩ := run₃.split
  obtain ⟨ctl₄, ⟨-, hb⟩, -⟩ := run₅.cons_inv
  have hw₁ := (wellPlaced_start current system).run run₁.of_guarded
  obtain ⟨k, hbk⟩ := hb.move.process_mem
  have hw₃ := (hw₁.step ha.move).run run₄.of_guarded
  have hk : a.trigger.counter = some k := hab.trans (hw₃.counter k b hbk)
  obtain ⟨hle, hafter⟩ := after_process ha.move hov hw₁ (run_ordered run₁.of_guarded) hk
  have hcur := ha.move.current_of_inPass trivial
  have hpass := (pass_after hafter (hcur ▸ hle) run₄ hmid).1 b hbk
  rwa [List.append_assoc, List.singleton_append] at hpass

end Awb.Classic
