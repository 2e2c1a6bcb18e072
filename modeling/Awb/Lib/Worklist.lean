import Mathlib.Data.Set.Finite.Basic
import Mathlib.Logic.Relation
import Mathlib.Tactic

/-! A list that grows while it is scanned. Its elements refer to others, which are put at its end;
when it is scanned, roots are put at the end one after the other, and elements that are not scanned.
Some references are followed without a test. The list has everything that can be reached once
exactly if none of these is to an element that is listed already. -/

namespace Worklist
variable {α : Type*} [BEq α] [LawfulBEq α]

structure Reference (α : Type*) where
  always : Bool
  target : α
deriving DecidableEq

/-- A root, which is scanned if it is new, or an element that is only put into the list. -/
inductive Event (α : Type*)
  | root (a : α)
  | extra (a : α)

/-- The list up to the element that is scanned next, the rest of it, and what comes afterwards. -/
structure State (α : Type*) where
  done : List α
  queue : List α
  events : List (Event α)

def State.listed (s : State α) : List α := s.done ++ s.queue

/-- The targets that are put at the end of the list: those that are new, and without a guard also
those of references that are always followed. -/
def taken (guarded : Bool) : List α → List (Reference α) → List α
  | _, [] => []
  | listed, r :: refs =>
    if (r.always = true ∧ guarded = false) ∨ r.target ∉ listed then
      r.target :: taken guarded (listed ++ [r.target]) refs
    else taken guarded listed refs

def step (guarded : Bool) (refs : α → List (Reference α)) : State α → Option (State α)
  | ⟨done, a :: queue, events⟩ =>
    some ⟨done ++ [a], queue ++ taken guarded (done ++ a :: queue) (refs a), events⟩
  | ⟨done, [], .root a :: events⟩ => some ⟨done, if a ∈ done then [] else [a], events⟩
  | ⟨done, [], .extra a :: events⟩ => some ⟨done ++ [a], [], events⟩
  | ⟨_, [], []⟩ => none

/-- The scan comes to its end with this list. -/
inductive Ends (guarded : Bool) (refs : α → List (Reference α)) : State α → List α → Prop
  | finished {s : State α} : step guarded refs s = none → Ends guarded refs s s.listed
  | next {s s' : State α} {l : List α} : step guarded refs s = some s' → Ends guarded refs s' l →
      Ends guarded refs s l

/-- One element refers to another. -/
def Refers (refs : α → List (Reference α)) (a b : α) : Prop := ∃ r ∈ refs a, r.target = b

/-- What can be reached from the roots. -/
def Found (refs : α → List (Reference α)) (events : List (Event α)) (b : α) : Prop :=
  ∃ a, .root a ∈ events ∧ Relation.ReflTransGen (Refers refs) a b

def extras (events : List (Event α)) : List α :=
  events.filterMap fun
    | .root _ => none
    | .extra a => some a

/-- A reference that is always followed has a target that is not listed. -/
def AlwaysNew (listed : List α) (rs : List (Reference α)) : Prop :=
  ∀ front r back, rs = front ++ r :: back → r.always = true →
    r.target ∉ listed ++ taken true listed front

/-- This is so for all that is scanned when each element is listed once. -/
def Orderly (refs : α → List (Reference α)) (s : State α) : Prop :=
  ∀ done a queue events,
    Relation.ReflTransGen (fun s s' => step true refs s = some s') s ⟨done, a :: queue, events⟩ →
      AlwaysNew (done ++ a :: queue) (refs a)

variable {refs : α → List (Reference α)} {s s' : State α} {l : List α} {a b : α}
  {rs : List (Reference α)} {listed done queue : List α} {events : List (Event α)}
  {guarded : Bool}

/-! ### The references of an element -/

theorem mem_taken : b ∈ listed ++ taken guarded listed rs ↔
    b ∈ listed ∨ ∃ r ∈ rs, r.target = b := by
  induction rs generalizing listed with
  | nil => simp [taken]
  | cons r rs ih =>
    rw [taken, List.exists_mem_cons_iff, ← or_assoc]
    split
    next =>
      rw [List.append_cons, ih, List.mem_append, List.mem_singleton, eq_comm]
    next h =>
      have hold : r.target ∈ listed := not_not.mp (not_or.mp h).2
      rw [ih]
      exact or_congr_left ⟨Or.inl, fun h => h.elim id fun heq => heq ▸ hold⟩

/-- If the targets are new where no test is made, the tests make no difference. -/
theorem taken_eq (h : AlwaysNew listed rs) : taken false listed rs = taken true listed rs := by
  induction rs generalizing listed with
  | nil => rfl
  | cons r rs ih =>
    have hfirst : r.always = true → r.target ∉ listed := fun halways => by
      simpa [taken] using h [] r rs rfl halways
    rw [taken, taken]
    by_cases hmem : r.target ∈ listed
    · have halways : ¬ r.always = true := fun halways => hfirst halways hmem
      rw [if_neg (by simp [halways, hmem]), if_neg (by simp [hmem])]
      refine ih fun front r' back heq hr => ?_
      simpa [taken, hmem] using h (r :: front) r' back (by rw [heq]; rfl) hr
    · rw [if_pos (Or.inr hmem), if_pos (Or.inr hmem)]
      refine congrArg _ (ih fun front r' back heq hr => ?_)
      have hrest := h (r :: front) r' back (by rw [heq]; rfl) hr
      rw [taken, if_pos (Or.inr hmem), List.append_cons] at hrest
      exact hrest

/-- Otherwise an element is listed twice. -/
theorem one_lt_count (h : ¬ AlwaysNew listed rs) :
    ∃ r ∈ rs, 1 < (listed ++ taken false listed rs).count r.target := by
  unfold AlwaysNew at h
  push Not at h
  obtain ⟨front, r, back, rfl, halways, hmem⟩ := h
  refine ⟨r, List.mem_append_right _ List.mem_cons_self, ?_⟩
  have hsome := mem_taken.mp hmem
  clear hmem
  induction front generalizing listed with
  | nil =>
    have hpos := List.count_pos_iff.mpr (hsome.resolve_right (by simp))
    rw [List.nil_append, taken, if_pos (Or.inl ⟨halways, rfl⟩), List.count_append,
      List.count_cons_self]
    omega
  | cons r' front ih =>
    rw [List.exists_mem_cons_iff, ← or_assoc] at hsome
    rw [List.cons_append, taken]
    split
    next =>
      rw [List.append_cons]
      refine ih (hsome.imp_left fun h => ?_)
      exact h.elim (List.mem_append_left _) fun heq => by simp [heq]
    next h =>
      have hold : r'.target ∈ listed := not_not.mp (not_or.mp h).2
      exact ih (hsome.imp_left fun h => h.elim id fun heq => heq ▸ hold)

theorem count_taken_le (h : listed.count b ≤ 1) :
    (listed ++ taken true listed rs).count b ≤ 1 := by
  induction rs generalizing listed with
  | nil => rwa [taken, List.append_nil]
  | cons r rs ih =>
    rw [taken]
    split
    next hnew =>
      have hmem : r.target ∉ listed := by simpa using hnew
      rw [List.append_cons]
      refine ih ?_
      rw [List.count_append, List.count_singleton]
      split
      next hsame =>
        obtain rfl := beq_iff_eq.mp hsame
        rw [List.count_eq_zero.mpr hmem]
      next => omega
    next => exact ih h

theorem exists_of_mem_taken (h : b ∈ taken guarded listed rs) : ∃ r ∈ rs, r.target = b := by
  induction rs generalizing listed with
  | nil => cases h
  | cons r rs ih =>
    rw [List.exists_mem_cons_iff]
    rw [taken] at h
    split at h
    next =>
      rcases List.mem_cons.mp h with rfl | h
      · exact Or.inl rfl
      · exact Or.inr (ih h)
    next => exact Or.inr (ih h)

/-! ### The scan -/

/-- What one step does. -/
theorem step_cases (h : step guarded refs s = some s') :
    (∃ done a queue events, s = ⟨done, a :: queue, events⟩ ∧
      s' = ⟨done ++ [a], queue ++ taken guarded (done ++ a :: queue) (refs a), events⟩) ∨
    (∃ done a events, s = ⟨done, [], .root a :: events⟩ ∧
      s' = ⟨done, if a ∈ done then [] else [a], events⟩) ∨
    ∃ done a events, s = ⟨done, [], .extra a :: events⟩ ∧ s' = ⟨done ++ [a], [], events⟩ := by
  obtain ⟨done, _ | ⟨a, queue⟩, events⟩ := s
  · rcases events with _ | ⟨a | a, events⟩
    · cases h
    · exact Or.inr (Or.inl ⟨done, a, events, rfl, (Option.some.inj h).symm⟩)
    · exact Or.inr (Or.inr ⟨done, a, events, rfl, (Option.some.inj h).symm⟩)
  · exact Or.inl ⟨done, a, queue, events, rfl, (Option.some.inj h).symm⟩

theorem listed_scan (guarded : Bool) (refs : α → List (Reference α)) (done : List α) (a : α)
    (queue : List α) (events : List (Event α)) :
    State.listed ⟨done ++ [a], queue ++ taken guarded (done ++ a :: queue) (refs a), events⟩ =
      (done ++ a :: queue) ++ taken guarded (done ++ a :: queue) (refs a) := by
  simp [State.listed]

theorem eq_of_finished (h : step guarded refs s = none) : s.queue = [] ∧ s.events = [] := by
  obtain ⟨done, _ | ⟨a, queue⟩, _ | ⟨a | a, events⟩⟩ := s
  all_goals first | exact ⟨rfl, rfl⟩ | cases h

theorem prefix_step (h : step guarded refs s = some s') : s.listed <+: s'.listed := by
  obtain ⟨done, a, queue, events, rfl, rfl⟩ | ⟨done, a, events, rfl, rfl⟩ |
    ⟨done, a, events, rfl, rfl⟩ := step_cases h
  · rw [listed_scan]
    exact List.prefix_append _ _
  · exact ⟨if a ∈ done then [] else [a], by simp [State.listed]⟩
  · exact ⟨[a], by simp [State.listed]⟩

theorem Ends.prefix (h : Ends guarded refs s l) : s.listed <+: l := by
  induction h with
  | finished => exact List.prefix_rfl
  | next hstep _ ih => exact (prefix_step hstep).trans ih

/-- What is in the queue and the roots belong to what can be found, the extra elements do not. -/
structure Within (P : α → Prop) (refs : α → List (Reference α)) (s : State α) : Prop where
  closed : ∀ a, P a → ∀ r ∈ refs a, P r.target
  queue : ∀ a ∈ s.queue, P a
  roots : ∀ a, .root a ∈ s.events → P a
  extras : ∀ a, .extra a ∈ s.events → ¬ P a

variable {P : α → Prop}

theorem Within.next (h : Within P refs s) (hstep : step guarded refs s = some s') :
    Within P refs s' := by
  obtain ⟨done, a, queue, events, rfl, rfl⟩ | ⟨done, a, events, rfl, rfl⟩ |
    ⟨done, a, events, rfl, rfl⟩ := step_cases hstep
  · refine ⟨h.closed, fun b hb => ?_, h.roots, h.extras⟩
    rcases List.mem_append.mp hb with hb | hb
    · exact h.queue b (List.mem_cons_of_mem a hb)
    · obtain ⟨r, hr, rfl⟩ := exists_of_mem_taken hb
      exact h.closed a (h.queue a List.mem_cons_self) r hr
  · refine ⟨h.closed, fun b hb => ?_, fun b hb => h.roots b (List.mem_cons_of_mem _ hb),
      fun b hb => h.extras b (List.mem_cons_of_mem _ hb)⟩
    dsimp only at hb
    split at hb
    · cases hb
    · obtain rfl := List.mem_singleton.mp hb
      exact h.roots b List.mem_cons_self
  · exact ⟨h.closed, fun b hb => (nomatch hb), fun b hb => h.roots b (List.mem_cons_of_mem _ hb),
      fun b hb => h.extras b (List.mem_cons_of_mem _ hb)⟩

/-- What cannot be found is listed as often as it is put into the list. -/
theorem Ends.count_eq (h : Ends guarded refs s l) (hs : Within P refs s) (hb : ¬ P b) :
    l.count b = s.listed.count b + (extras s.events).count b := by
  induction h with
  | finished hnone =>
    rw [(eq_of_finished hnone).2]
    rfl
  | @next s s' l hstep _ ih =>
    have hs' := hs.next hstep
    rw [ih hs']
    obtain ⟨done, a, queue, events, rfl, rfl⟩ | ⟨done, a, events, rfl, rfl⟩ |
      ⟨done, a, events, rfl, rfl⟩ := step_cases hstep
    · have hnone : b ∉ taken guarded (done ++ a :: queue) (refs a) := fun hmem =>
        hb (hs'.queue b (List.mem_append_right _ hmem))
      rw [listed_scan, List.count_append, List.count_eq_zero.mpr hnone, Nat.add_zero]
      rfl
    · have hroot : a ≠ b := fun heq => hb (heq ▸ hs.roots a List.mem_cons_self)
      have hzero : (if a ∈ done then [] else [a]).count b = 0 := by
        split_ifs
        · rfl
        · exact List.count_eq_zero.mpr fun hmem => hroot (List.mem_singleton.mp hmem).symm
      rw [State.listed, State.listed, List.count_append, hzero, List.append_nil]
      rfl
    · simp only [State.listed, extras, List.append_nil, List.count_append, List.filterMap_cons,
        List.count_cons]
      simp
      omega

/-- What is scanned has its targets in the list. -/
theorem Ends.closed (h : Ends guarded refs s l) (hs : Within P refs s) (hb : P b) (hmem : b ∈ l) :
    b ∈ s.done ∨ ∀ r ∈ refs b, r.target ∈ l := by
  induction h with
  | finished hnone =>
    rw [State.listed, (eq_of_finished hnone).1, List.append_nil] at hmem
    exact Or.inl hmem
  | @next s s' l hstep hends ih =>
    have hor := ih (hs.next hstep) hmem
    have hlisted := hends.prefix.subset
    obtain ⟨done, a, queue, events, rfl, rfl⟩ | ⟨done, a, events, rfl, rfl⟩ |
      ⟨done, a, events, rfl, rfl⟩ := step_cases hstep
    · rcases hor with hdone | hrefs
      · rcases List.mem_append.mp hdone with hdone | hsame
        · exact Or.inl hdone
        · obtain rfl := List.mem_singleton.mp hsame
          refine Or.inr fun r hr => hlisted ?_
          rw [listed_scan]
          exact mem_taken.mpr (Or.inr ⟨r, hr, rfl⟩)
      · exact Or.inr hrefs
    · exact hor
    · rcases hor with hdone | hrefs
      · rcases List.mem_append.mp hdone with hdone | hsame
        · exact Or.inl hdone
        · obtain rfl := List.mem_singleton.mp hsame
          exact absurd hb (hs.extras b List.mem_cons_self)
      · exact Or.inr hrefs

theorem Ends.root (h : Ends guarded refs s l) (hroot : .root a ∈ s.events) : a ∈ l := by
  induction h with
  | finished hnone =>
    rw [(eq_of_finished hnone).2] at hroot
    cases hroot
  | @next s s' l hstep hends ih =>
    have hlisted := hends.prefix.subset
    obtain ⟨done, b, queue, events, rfl, rfl⟩ | ⟨done, b, events, rfl, rfl⟩ |
      ⟨done, b, events, rfl, rfl⟩ := step_cases hstep
    · exact ih hroot
    · rcases List.mem_cons.mp hroot with heq | hroot
      · obtain rfl := Event.root.inj heq
        refine hlisted ?_
        by_cases hmem : a ∈ done
        · exact List.mem_append_left _ hmem
        · simp [State.listed, hmem]
      · exact ih hroot
    · rcases List.mem_cons.mp hroot with heq | hroot
      · cases heq
      · exact ih hroot

/-! ### Scans in which each element is listed once -/

theorem Orderly.scan (h : Orderly refs ⟨done, a :: queue, events⟩) :
    AlwaysNew (done ++ a :: queue) (refs a) := h _ _ _ _ Relation.ReflTransGen.refl

theorem Orderly.next (h : Orderly refs s) (hstep : step true refs s = some s') : Orderly refs s' :=
  fun _ _ _ _ hreach => h _ _ _ _ (Relation.ReflTransGen.head hstep hreach)

theorem step_eq (h : ∀ done a queue events, s = ⟨done, a :: queue, events⟩ →
    AlwaysNew (done ++ a :: queue) (refs a)) : step false refs s = step true refs s := by
  obtain ⟨done, _ | ⟨a, queue⟩, events⟩ := s
  · rcases events with _ | ⟨a | a, events⟩ <;> rfl
  · rw [step, step, taken_eq (h done a queue events rfl)]

/-- With finitely many elements to be found an orderly scan comes to its end. -/
theorem Orderly.exists_ends (horder : Orderly refs s) (hfinite : {b | P b}.Finite)
    (hs : Within P refs s) (hone : ∀ b, P b → s.listed.count b ≤ 1) :
    ∃ l, Ends false refs s l ∧ ∀ b, P b → l.count b ≤ 1 := by
  classical
  -- each step takes an event or scans another one of these elements
  induction hsize : s.events.length + (hfinite.toFinset \ s.done.toFinset).card using
    Nat.strong_induction_on generalizing s with
  | _ size ih =>
    have heq : step false refs s = step true refs s := step_eq fun done a queue events hs => by
      subst hs
      exact horder.scan
    cases hstep : step true refs s with
    | none => exact ⟨s.listed, Ends.finished (heq.trans hstep), hone⟩
    | some s' =>
      have hs' := hs.next hstep
      have hsmaller : s'.events.length + (hfinite.toFinset \ s'.done.toFinset).card < size ∧
          ∀ b, P b → s'.listed.count b ≤ 1 := by
        subst hsize
        obtain ⟨done, a, queue, events, rfl, rfl⟩ | ⟨done, a, events, rfl, rfl⟩ |
          ⟨done, a, events, rfl, rfl⟩ := step_cases hstep
        · refine ⟨Nat.add_lt_add_left (Finset.card_lt_card ?_) _, fun b hb => ?_⟩
          · have ha := hs.queue a List.mem_cons_self
            have hdone : a ∉ done := fun hmem => by
              have hcount := hone a ha
              have hpos := List.count_pos_iff.mpr hmem
              rw [State.listed, List.count_append, List.count_cons_self] at hcount
              dsimp only at hcount
              omega
            refine Finset.ssubset_iff_of_subset (fun b hb => ?_) |>.mpr ⟨a, ?_, ?_⟩
            · simp only [Finset.mem_sdiff, List.mem_toFinset, List.mem_append] at hb ⊢
              exact ⟨hb.1, fun hmem => hb.2 (Or.inl hmem)⟩
            · simp [ha, hdone]
            · simp
          · rw [listed_scan]
            exact count_taken_le (hone b hb)
        · refine ⟨Nat.add_lt_add_right (Nat.lt_succ_self _) _, fun b hb => ?_⟩
          have hcount := hone b hb
          rw [State.listed, List.append_nil] at hcount
          rw [State.listed]
          dsimp only
          split_ifs with hmem
          · rwa [List.append_nil]
          · rw [List.count_append, List.count_singleton]
            split_ifs with hsame
            · obtain rfl := beq_iff_eq.mp hsame
              have hzero := List.count_eq_zero.mpr hmem
              omega
            · exact hcount
        · refine ⟨Nat.add_lt_add_of_lt_of_le (Nat.lt_succ_self _) (Finset.card_le_card ?_),
            fun b hb => ?_⟩
          · refine Finset.sdiff_subset_sdiff (Finset.Subset.refl _) fun b hb => ?_
            simp only [List.mem_toFinset] at hb ⊢
            exact List.mem_append_left _ hb
          · have hcount := hone b hb
            have hne : a ≠ b := fun heq => hs.extras a List.mem_cons_self (heq ▸ hb)
            rw [State.listed, List.append_nil] at hcount
            rw [State.listed, List.append_nil, List.count_append,
              List.count_eq_zero.mpr fun hmem => hne (List.mem_singleton.mp hmem).symm]
            exact hcount
      obtain ⟨l, hends, hl⟩ := ih _ hsmaller.1 (horder.next hstep) hs' hsmaller.2 rfl
      exact ⟨l, Ends.next (heq.trans hstep) hends, hl⟩

/-- A scan that ends with each element listed once is orderly. -/
theorem Ends.orderly (h : Ends false refs s l) (hs : Within P refs s)
    (hone : ∀ b, P b → l.count b ≤ 1) : Orderly refs s := by
  induction h with
  | finished hnone =>
    intro done a queue events hreach
    obtain ⟨hqueue, hevents⟩ := eq_of_finished hnone
    rcases Relation.ReflTransGen.cases_head hreach with rfl | ⟨s', hstep, -⟩
    · cases hqueue
    · obtain ⟨done, a, queue, events, rfl, rfl⟩ | ⟨done, a, events, rfl, rfl⟩ |
        ⟨done, a, events, rfl, rfl⟩ := step_cases hstep
      · cases hqueue
      · cases hevents
      · cases hevents
  | @next s s' l hstep hends ih =>
    have horder := ih (hs.next hstep) hone
    have hnew : ∀ done a queue events, s = ⟨done, a :: queue, events⟩ →
        AlwaysNew (done ++ a :: queue) (refs a) := by
      rintro done a queue events rfl
      obtain rfl := Option.some.inj hstep
      by_contra hnot
      obtain ⟨r, hr, hcount⟩ := one_lt_count hnot
      have hle := hends.prefix.sublist.count_le r.target
      rw [listed_scan] at hle
      have htarget := hs.closed a (hs.queue a List.mem_cons_self) r hr
      exact absurd (hcount.trans_le (hle.trans (hone _ htarget))) (lt_irrefl 1)
    intro done a queue events hreach
    rcases Relation.ReflTransGen.cases_head hreach with rfl | ⟨s'', hstep', hreach⟩
    · exact hnew done a queue events rfl
    · rw [step_eq hnew, hstep'] at hstep
      obtain rfl := Option.some.inj hstep
      exact horder done a queue events hreach

/-- If all references are tested, the scan is orderly. -/
theorem orderly_of_tested (h : ∀ a, ∀ r ∈ refs a, r.always = false) (s : State α) :
    Orderly refs s := by
  intro done a queue events _ front r back heq halways
  rw [h a r (heq ▸ List.mem_append_right _ List.mem_cons_self)] at halways
  cases halways

/-- What can be found is listed once, and other elements as often as they are put into the list. -/
structure ListsFound (refs : α → List (Reference α)) (events : List (Event α)) (l : List α) :
    Prop where
  found : ∀ b, Found refs events b → l.count b = 1
  others : ∀ b, ¬ Found refs events b → l.count b = (extras events).count b

omit [BEq α] [LawfulBEq α] in
theorem within_found (h : ∀ a, .extra a ∈ events → ¬ Found refs events a) :
    Within (Found refs events) refs ⟨[], [], events⟩ where
  closed := fun _ ⟨root, hroot, hreach⟩ r hr => ⟨root, hroot, hreach.tail ⟨r, hr, rfl⟩⟩
  queue := fun _ ha => nomatch ha
  roots := fun a ha => ⟨a, ha, Relation.ReflTransGen.refl⟩
  extras := h

/-- What can be found is listed, and nothing else is put into the list. -/
theorem Ends.found (h : Ends guarded refs ⟨[], [], events⟩ l)
    (hextras : ∀ a, .extra a ∈ events → ¬ Found refs events a) :
    (∀ b, Found refs events b → b ∈ l) ∧
      ∀ b, ¬ Found refs events b → l.count b = (extras events).count b := by
  have hs : Within (Found refs events) refs ⟨[], [], events⟩ := within_found hextras
  refine ⟨fun b hb => ?_, fun b hb => ?_⟩
  · obtain ⟨root, hroot, hreach⟩ := hb
    induction hreach with
    | refl => exact h.root hroot
    | @tail c d hreach hrefers ih =>
      obtain ⟨r, hr, rfl⟩ := hrefers
      exact ((h.closed hs ⟨root, hroot, hreach⟩ ih).resolve_left List.not_mem_nil) r hr
  · rw [h.count_eq hs hb]
    exact Nat.zero_add _

/-- The scan lists what can be found exactly if it is orderly. -/
theorem exists_ends_iff (hfinite : {b | Found refs events b}.Finite)
    (hextras : ∀ a, .extra a ∈ events → ¬ Found refs events a) :
    (∃ l, Ends false refs ⟨[], [], events⟩ l ∧ ListsFound refs events l) ↔
      Orderly refs ⟨[], [], events⟩ := by
  have hs : Within (Found refs events) refs ⟨[], [], events⟩ := within_found hextras
  constructor
  · rintro ⟨l, hends, hlists⟩
    exact hends.orderly hs fun b hb => (hlists.found b hb).le
  · intro horder
    obtain ⟨l, hends, hone⟩ := horder.exists_ends hfinite hs fun _ _ => Nat.zero_le _
    obtain ⟨hfound, hothers⟩ := hends.found hextras
    exact ⟨l, hends, fun b hb => le_antisymm (hone b hb) (List.count_pos_iff.mpr (hfound b hb)),
      hothers⟩

end Worklist
