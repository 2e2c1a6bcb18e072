import Awb.Classic.Reachable

/-! The items of some kinds as a queue. Items for now or for a cycle, none of them for an earlier
time than one before it, leave the controller in the order in which they came. -/

namespace Awb.Classic

/-- The items of the selected kinds, as they will be handled: those of the cycle list, and behind
them those still on the work list. -/
def LoopState.waiting (p : WorkKind → Bool) (ctl : LoopState) : WorkList :=
  (ctl.schedule.cycleList ++ ctl.ctrlWorkList).filter fun x => p x.kind

/-- The selected items are due once at a cycle or now, in this order. -/
structure Queue (p : WorkKind → Bool) (ctl : LoopState) : Prop where
  trigger : ∀ x, ctl.Holds x → p x.kind = true → x.trigger = .now ∨ x.trigger = .cycleOnce
  sorted : (ctl.waiting p).Pairwise fun a b => a.time ≤ b.time

/-- Progress is not selected. -/
def NoProgress (p : WorkKind → Bool) : Prop := ∀ type args, p (.progress type args) = false

variable {p : WorkKind → Bool} {ctl ctl' : LoopState} {l : Label}

theorem NoProgress.isProgress (hp : NoProgress p) {x : WorkItem} (hx : p x.kind = true) :
    WorkList.isProgress x = false := by
  by_contra h
  obtain ⟨type, args, hkind⟩ := (WorkList.isProgress_iff x).mp (by simpa using h)
  rw [hkind, hp type args] at hx
  cases hx

theorem NoProgress.clears (hp : NoProgress p) {kind : WorkKind} (hx : p kind = true) :
    kind.clears = none := by
  cases kind with
  | progress type args =>
    rw [hp type args] at hx
    cases hx
  | _ => rfl

theorem Queue.not_period (h : Queue p ctl) {x : WorkItem} (hx : ctl.Holds x)
    (hpx : p x.kind = true) : x.trigger.isPeriod = false := by
  rcases h.trigger x hx hpx with ht | ht <;> rw [ht] <;> rfl

/-- Selected items wait on the cycle list only. -/
theorem Queue.not_selected (h : Queue p ctl) (hr : Reachable ctl) {k : CounterKind} {x : WorkItem}
    (hx : x ∈ ctl.schedule.list k) (hk : k ≠ .cycle) : p x.kind = false := by
  by_contra hpx
  have hcounter := hr.wellPlaced.counter k x hx
  rcases h.trigger x (.inr ⟨k, hx⟩) (by simpa using hpx) with ht | ht <;> rw [ht] at hcounter
  · exact hk (Option.some.inj hcounter).symm
  · exact hk (Option.some.inj hcounter).symm

/-- A cleared list loses progress only. -/
theorem filter_clearProgress (hp : NoProgress p) (l : WorkList) :
    l.clearProgress.filter (fun x => p x.kind) = l.filter (fun x => p x.kind) := by
  rw [WorkList.clearProgress, List.filter_filter]
  apply List.filter_congr
  intro x _
  cases hpx : p x.kind with
  | false => rfl
  | true => simp [hp.isProgress hpx]

theorem cycleList_setList (s : Schedule) (k : CounterKind) (l : WorkList) :
    (s.setList k l).cycleList = if k = .cycle then l else s.cycleList := by
  cases k <;> rfl

/-- Scheduling an item that is not selected. -/
theorem filter_cycleList_of_neg (hp : NoProgress p) {item : WorkItem} {s s' : Schedule}
    {current : Counters} {r : Scheduled} (h : item.schedule s current = .ok (r, s'))
    (hitem : p item.kind = false) : s'.cycleList.filter (fun x => p x.kind) =
      s.cycleList.filter (fun x => p x.kind) := by
  rcases WorkItem.schedule_ok h with ⟨k, -, -, rfl⟩ | ⟨item', -, -, hs⟩
  · rw [Schedule.clearProgress, cycleList_setList]
    split_ifs with hk
    · subst hk
      exact filter_clearProgress hp s.cycleList
    · rfl
  · obtain ⟨halign, k, -, rfl⟩ := Schedule.schedule_ok_iff.mp hs
    rw [cycleList_setList]
    split_ifs with hk
    · subst hk
      apply StableInsert.filter_insert_of_neg
      simp only [alignPeriod_kind halign, hitem]
    · rfl

/-- Scheduling a selected item: it comes behind the selected ones, which are due no later. -/
theorem filter_cycleList_of_pos (hp : NoProgress p) {item : WorkItem} {s s' : Schedule}
    {current : Counters} {r : Scheduled} (h : item.schedule s current = .ok (r, s'))
    (hitem : p item.kind = true) (htrigger : item.trigger = .now ∨ item.trigger = .cycleOnce)
    (hsorted : s.cycleList.Pairwise fun a b => a.time ≤ b.time)
    (hle : ∀ x ∈ s.cycleList, p x.kind = true → x.time ≤ item.time) :
    s'.cycleList.filter (fun x => p x.kind) = s.cycleList.filter (fun x => p x.kind) ++ [item] := by
  have hperiod : item.trigger.isPeriod = false := by
    rcases htrigger with ht | ht <;> rw [ht] <;> rfl
  rcases WorkItem.schedule_ok h with ⟨k, hk, -⟩ | ⟨item', -, -, hs⟩
  · rw [hp.clears hitem] at hk
    cases hk
  · obtain ⟨halign, k, hk, rfl⟩ := Schedule.schedule_ok_iff.mp hs
    rw [Schedule.alignPeriod_of_not_isPeriod hperiod] at halign
    obtain rfl := Except.ok.inj halign
    have hcycle : k = .cycle := by
      rcases htrigger with ht | ht <;> rw [ht] at hk <;> exact (Option.some.inj hk).symm
    subst hcycle
    rw [cycleList_setList, if_pos rfl]
    exact StableInsert.filter_insert_of_le hitem hsorted hle

/-- What waited and what arrives is what was processed and what waits now, in this order. -/
theorem Move.waiting (h : Move ctl l ctl') (hp : NoProgress p) (hq : Queue p ctl)
    (hr : Reachable ctl) : ctl.waiting p ++ l.arrived.filter (fun x => p x.kind) =
      l.finished.filter (fun x => p x.kind) ++ ctl'.waiting p := by
  cases h with
  | arrive c =>
    simp [LoopState.waiting, LoopState.arrive, Controller.command, WorkList.add, Label.arrived,
      Label.finished]
  | sample | leave | drained | idle | wait | execute =>
    simp [LoopState.waiting, Label.arrived, Label.finished]
  | @drain item rest r s hphase hlist hschedule =>
    have hsorted : ctl.schedule.cycleList.Pairwise fun a b => a.time ≤ b.time := hr.sorted .cycle
    simp only [LoopState.waiting, Label.arrived, Label.finished, hlist, List.filter_append,
      List.filter_nil, List.append_nil, List.nil_append]
    cases hitem : p item.kind with
    | false =>
      rw [filter_cycleList_of_neg hp hschedule hitem,
        List.filter_cons_of_neg (by simp [hitem])]
    | true =>
      have hholds : ctl.Holds item := .inl (by simp [hlist])
      have hfirst : (item :: rest).filter (fun x => p x.kind) =
          item :: rest.filter fun x => p x.kind := List.filter_cons_of_pos (by simpa using hitem)
      have hle : ∀ x ∈ ctl.schedule.cycleList, p x.kind = true → x.time ≤ item.time := by
        have hpairs := hq.sorted
        simp only [LoopState.waiting, hlist, List.filter_append, hfirst] at hpairs
        intro x hx hpx
        exact (List.pairwise_append.mp hpairs).2.2 x (List.mem_filter.mpr ⟨hx, hpx⟩) item
          List.mem_cons_self
      rw [filter_cycleList_of_pos hp hschedule hitem (hq.trigger item hholds hitem) hsorted hle,
        hfirst, List.append_assoc]
      rfl
  | @process item s hphase hready hperiod =>
    obtain ⟨k, rest, hl, -, rfl⟩ := Schedule.readyEvent_some hready
    simp only [LoopState.waiting, Label.arrived, Label.finished, cmdAction_schedule,
      cmdAction_ctrlWorkList, cycleList_setList, List.filter_append, List.filter_nil,
      List.append_nil]
    split_ifs with hk
    · subst hk
      have hcycle : ctl.schedule.cycleList = item :: rest := hl
      rw [hcycle]
      cases hitem : p item.kind <;> simp [hitem]
    · have hitem : p item.kind = false := hq.not_selected hr (hl ▸ List.mem_cons_self) hk
      simp [hitem]
  | @reprocess item s s' r hphase hready hperiod hschedule =>
    obtain ⟨k, rest, hl, -, rfl⟩ := Schedule.readyEvent_some hready
    have hmem : item ∈ ctl.schedule.list k := hl ▸ List.mem_cons_self
    have hitem : p item.kind = false := by
      by_contra hpx
      have hnot := hq.not_period (.inr ⟨k, hmem⟩) (by simpa using hpx)
      cases hperiod.symm.trans hnot
    simp only [LoopState.waiting, Label.arrived, Label.finished, cmdAction_ctrlWorkList,
      List.filter_append, List.filter_nil, List.append_nil, List.nil_append,
      filter_cycleList_of_neg hp hschedule hitem, cycleList_setList]
    split_ifs with hk
    · subst hk
      have hcycle : ctl.schedule.cycleList = item :: rest := hl
      rw [hcycle, List.filter_cons_of_neg (by simp [hitem])]
    · rfl

/-- A step that brings in no selected item keeps the queue. -/
theorem Queue.move (hq : Queue p ctl) (h : Move ctl l ctl') (hp : NoProgress p) (hr : Reachable ctl)
    (hnew : ∀ x ∈ l.arrived, p x.kind = true → (x.trigger = .now ∨ x.trigger = .cycleOnce) ∧
      ∀ y ∈ ctl.waiting p, y.time ≤ x.time) : Queue p ctl' := by
  have heq := h.waiting hp hq hr
  constructor
  · intro x hx hpx
    rcases hx with hx | ⟨k, hx⟩
    · rcases h.mem_ctrlWorkList hx with hx | ⟨c, rfl, rfl⟩
      · exact hq.trigger x (.inl hx) hpx
      · exact (hnew _ (by simp [Label.arrived]) hpx).1
    · rcases h.mem_list hx with hx | ⟨item, hl, -, -, ha⟩
      · exact hq.trigger x (.inr ⟨k, hx⟩) hpx
      · rw [alignPeriod_kind ha] at hpx
        rw [alignPeriod_trigger ha]
        exact hq.trigger item (h.scheduled_holds hl) hpx
  · have hall : (ctl.waiting p ++ l.arrived.filter (fun x => p x.kind)).Pairwise
        fun a b => a.time ≤ b.time := by
      apply List.pairwise_append.mpr
      refine ⟨hq.sorted, ?_, ?_⟩
      · cases l with
        | arrive item => simpa [Label.arrived] using (List.pairwise_singleton _ item).filter _
        | _ => simp [Label.arrived]
      · intro a ha x hx
        obtain ⟨hx, hpx⟩ := List.mem_filter.mp hx
        exact (hnew x hx hpx).2 a ha
    rw [heq] at hall
    exact (List.pairwise_append.mp hall).2.1

/-- An item is of a kind that was held before, or that arrives. -/
theorem Move.kind_of_holds (h : Move ctl l ctl') {x : WorkItem} (hx : ctl'.Holds x) :
    (∃ y, ctl.Holds y ∧ y.kind = x.kind) ∨ ∃ y ∈ l.arrived, y.kind = x.kind := by
  rcases hx with hx | ⟨k, hx⟩
  · rcases h.mem_ctrlWorkList hx with hx | ⟨c, rfl, rfl⟩
    · exact .inl ⟨x, .inl hx, rfl⟩
    · exact .inr ⟨_, List.mem_cons_self, rfl⟩
  · rcases h.mem_list hx with hx | ⟨item, hl, -, -, ha⟩
    · exact .inl ⟨x, .inr ⟨k, hx⟩, rfl⟩
    · exact .inl ⟨item, h.scheduled_holds hl, (alignPeriod_kind ha).symm⟩

/-- A selected item that is processed is the first that waits, and is not rescheduled. -/
theorem Move.process_waiting {item : WorkItem} {current : Counters} {r : Option Scheduled}
    (h : Move ctl (.process item current r) ctl') (hp : NoProgress p) (hq : Queue p ctl)
    (hr : Reachable ctl) (hitem : p item.kind = true) : ctl.waiting p = item :: ctl'.waiting p := by
  have hr' : r = none := by
    cases h with
    | process => rfl
    | reprocess hphase hready hperiod hschedule =>
      obtain ⟨k, rest, hl, -, -⟩ := Schedule.readyEvent_some hready
      have hnot := hq.not_period (.inr ⟨k, hl ▸ List.mem_cons_self⟩) hitem
      cases hperiod.symm.trans hnot
  subst hr'
  have heq := h.waiting hp hq hr
  simpa [Label.arrived, Label.finished, hitem] using heq

/-! ### Commands -/

/-- The items of commands, from the next one on. -/
def items (id : Nat) : List Command → WorkList
  | [] => []
  | c :: cs => .new id c :: items (id + 1) cs

theorem items_kinds (id : Nat) (cs : List Command) :
    (items id cs).map WorkItem.kind = cs.map Command.kind := by
  induction cs generalizing id with
  | nil => rfl
  | cons c cs ih => exact congrArg (c.kind :: ·) (ih (id + 1))

theorem ctrlWorkList_commands (cs : List Command) (ctl : LoopState) :
    (cs.foldl LoopState.arrive ctl).ctrlWorkList = ctl.ctrlWorkList ++ items ctl.nextId cs := by
  induction cs generalizing ctl with
  | nil => simp [items]
  | cons c cs ih =>
    rw [List.foldl_cons, ih]
    simp [LoopState.arrive, Controller.command, WorkList.add, items]

theorem schedule_commands (cs : List Command) (ctl : LoopState) :
    (cs.foldl LoopState.arrive ctl).schedule = ctl.schedule := by
  induction cs generalizing ctl with
  | nil => rfl
  | cons c cs ih => exact ih (ctl.arrive c)

theorem holds_commands {cs : List Command} {x : WorkItem}
    (h : (cs.foldl LoopState.arrive ctl).Holds x) :
    ctl.Holds x ∨ ∃ c ∈ cs, c.kind = x.kind := by
  rcases h with h | ⟨k, h⟩
  · rw [ctrlWorkList_commands] at h
    rcases List.mem_append.mp h with h | h
    · exact .inl (.inl h)
    · have hkind : x.kind ∈ (items ctl.nextId cs).map WorkItem.kind := List.mem_map_of_mem h
      rw [items_kinds] at hkind
      exact .inr (List.mem_map.mp hkind)
  · rw [schedule_commands] at h
    exact .inl (.inr ⟨k, h⟩)

theorem waiting_commands (cs : List Command) (ctl : LoopState) :
    (cs.foldl LoopState.arrive ctl).waiting p =
      ctl.waiting p ++ (items ctl.nextId cs).filter fun x => p x.kind := by
  rw [LoopState.waiting, LoopState.waiting, ctrlWorkList_commands, schedule_commands,
    ← List.append_assoc, List.filter_append]

/-- An item as it comes from its command. -/
theorem mem_items {cs : List Command} {id : Nat} {x : WorkItem} (h : x ∈ items id cs) :
    ∃ c ∈ cs, x.kind = c.kind ∧ x.trigger = c.trigger ∧ x.time = c.count.toNat := by
  induction cs generalizing id with
  | nil => cases h
  | cons c cs ih =>
    rcases List.mem_cons.mp h with rfl | h
    · exact ⟨c, List.mem_cons_self, rfl, rfl, rfl⟩
    · obtain ⟨d, hd, hx⟩ := ih h
      exact ⟨d, List.mem_cons_of_mem c hd, hx⟩

/-- Selected commands in the order of their times, none of them for earlier than what waits. -/
theorem Queue.commands (hq : Queue p ctl) {cs : List Command}
    (htrigger : ∀ c ∈ cs, p c.kind = true → c.trigger = .now ∨ c.trigger = .cycleOnce)
    (hsorted : cs.Pairwise fun c d => p c.kind = true → p d.kind = true →
      c.count.toNat ≤ d.count.toNat)
    (hle : ∀ x ∈ ctl.waiting p, ∀ c ∈ cs, p c.kind = true → x.time ≤ c.count.toNat) :
    Queue p (cs.foldl LoopState.arrive ctl) := by
  induction cs generalizing ctl with
  | nil => exact hq
  | cons c cs ih =>
    obtain ⟨hc, hcs⟩ := List.pairwise_cons.mp hsorted
    have hwaiting : (ctl.arrive c).waiting p =
        ctl.waiting p ++ [WorkItem.new ctl.nextId c].filter fun x => p x.kind :=
      waiting_commands [c] ctl
    refine ih ⟨?_, ?_⟩ (fun d hd => htrigger d (List.mem_cons_of_mem c hd)) hcs ?_
    · rintro x (hx | hx) hpx
      · rcases List.mem_append.mp hx with hx | hx
        · exact hq.trigger x (.inl hx) hpx
        · obtain rfl := List.mem_singleton.mp hx
          exact htrigger c List.mem_cons_self hpx
      · exact hq.trigger x (.inr hx) hpx
    · rw [hwaiting]
      apply List.pairwise_append.mpr
      refine ⟨hq.sorted, (List.pairwise_singleton _ _).filter _, ?_⟩
      intro x hx y hy
      obtain ⟨hy, hpy⟩ := List.mem_filter.mp hy
      obtain rfl := List.mem_singleton.mp hy
      exact hle x hx c List.mem_cons_self hpy
    · intro x hx d hd hpd
      rw [hwaiting] at hx
      rcases List.mem_append.mp hx with hx | hx
      · exact hle x hx d (List.mem_cons_of_mem c hd) hpd
      · obtain ⟨hx, hpx⟩ := List.mem_filter.mp hx
        obtain rfl := List.mem_singleton.mp hx
        exact hc d hd hpx hpd

end Awb.Classic
