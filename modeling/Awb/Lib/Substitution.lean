import Mathlib.Tactic

/-! Replacing the first occurrence of a list in another one, over and over, against replacing each
of its occurrences once. -/

namespace Substitution
variable {α : Type*}

/-! ### Parts in a row -/

/-- The first parts are joined by the replacement, and the others still by the search list. -/
def mixed (search replacement : List α) (done rest : List (List α)) : List α :=
  replacement.intercalate done ++ rest.flatMap (search ++ ·)

theorem intercalate_cons_eq (sep part : List α) (parts : List (List α)) :
    sep.intercalate (part :: parts) = part ++ parts.flatMap (sep ++ ·) := by
  induction parts generalizing part with
  | nil => simp
  | cons next parts ih =>
    rw [List.intercalate_cons_cons, ih, List.flatMap_cons, List.append_assoc, List.append_assoc]

theorem intercalate_append_eq {sep : List α} {done rest : List (List α)} (hne : done ≠ []) :
    sep.intercalate (done ++ rest) = sep.intercalate done ++ rest.flatMap (sep ++ ·) := by
  obtain ⟨part, done, rfl⟩ := List.exists_cons_of_ne_nil hne
  rw [List.cons_append, intercalate_cons_eq, intercalate_cons_eq, List.flatMap_append,
    List.append_assoc]

theorem mixed_nil (search replacement : List α) (done : List (List α)) :
    mixed search replacement done [] = replacement.intercalate done := by
  rw [mixed, List.flatMap_nil, List.append_nil]

theorem mixed_cons (search replacement part : List α) (done rest : List (List α)) :
    mixed search replacement done (part :: rest) =
      replacement.intercalate done ++ search ++ (part ++ rest.flatMap (search ++ ·)) := by
  rw [mixed, List.flatMap_cons, List.append_assoc, List.append_assoc]

theorem mixed_done {done : List (List α)} (hne : done ≠ []) (search replacement part : List α)
    (rest : List (List α)) : mixed search replacement (done ++ [part]) rest =
      replacement.intercalate done ++ replacement ++ (part ++ rest.flatMap (search ++ ·)) := by
  rw [mixed, intercalate_append_eq hne, List.flatMap_singleton]
  simp only [List.append_assoc]

theorem mixed_singleton (search replacement part : List α) (rest : List (List α)) :
    mixed search replacement [part] rest = search.intercalate (part :: rest) := by
  rw [mixed, List.intercalate_singleton, intercalate_cons_eq]

/-! ### Replacing -/

variable [DecidableEq α]

/-- What stands before and behind the first occurrence of a list. -/
def cutAt (search : List α) : List α → Option (List α × List α)
  | [] => if search = [] then some ([], []) else none
  | a :: l =>
    if search.isPrefixOf (a :: l) then some ([], (a :: l).drop search.length)
    else (cutAt search l).map fun cut => (a :: cut.1, cut.2)

/-- The first occurrence is replaced, if there is one. -/
def substituteFirst (search replacement l : List α) : Option (List α) :=
  (cutAt search l).map fun cut => cut.1 ++ replacement ++ cut.2

/-- The first occurrence is replaced until there is none. -/
def substituteAll (search replacement : List α) : ℕ → List α → Option (List α)
  | 0, _ => none
  | fuel + 1, l =>
    match substituteFirst search replacement l with
    | none => some l
    | some l' => substituteAll search replacement fuel l'

/-- The parts between the occurrences that are met from left to right without overlap. -/
def cuts (search : List α) : ℕ → List α → List (List α)
  | 0, l => [l]
  | n + 1, l =>
    match cutAt search l with
    | none => [l]
    | some (before, after) => before :: cuts search n after

/-- Each of these occurrences is replaced once. -/
def substituteEach (search replacement l : List α) : List α :=
  replacement.intercalate (cuts search l.length l)

variable {search replacement l l' before after front back : List α}

/-! ### The first occurrence -/

theorem cutAt_spec (search l : List α) :
    (∀ cut, cutAt search l = some cut → l = cut.1 ++ search ++ cut.2 ∧
      ∀ front back, l = front ++ search ++ back → cut.1.length ≤ front.length) ∧
    (cutAt search l = none → ∀ front back, l ≠ front ++ search ++ back) := by
  induction l with
  | nil =>
    rw [cutAt]
    split
    next hnil =>
      subst hnil
      exact ⟨fun cut h => Option.some.inj h ▸ ⟨rfl, fun _ _ _ => Nat.zero_le _⟩,
        fun h => absurd h (by simp)⟩
    next hne =>
      refine ⟨fun _ h => absurd h (by simp), fun _ front back heq => hne ?_⟩
      exact (List.append_eq_nil_iff.mp (List.append_eq_nil_iff.mp heq.symm).1).2
  | cons a l ih =>
    rw [cutAt]
    split
    next hstart =>
      obtain ⟨rest, hrest⟩ := List.isPrefixOf_iff_prefix.mp hstart
      refine ⟨fun cut h => ?_, fun h => absurd h (by simp)⟩
      obtain rfl := Option.some.inj h
      refine ⟨?_, fun _ _ _ => Nat.zero_le _⟩
      rw [List.nil_append, ← hrest, List.drop_left]
    next hstart =>
      have hcons : ∀ front back, a :: l = front ++ search ++ back →
          ∃ front', front = a :: front' ∧ l = front' ++ search ++ back := by
        rintro (_ | ⟨b, front⟩) back heq
        · exact absurd (List.isPrefixOf_iff_prefix.mpr ⟨back, heq.symm⟩) hstart
        · obtain ⟨rfl, hl⟩ := List.cons.inj heq
          exact ⟨front, rfl, hl⟩
      refine ⟨fun cut h => ?_, fun h front back heq => ?_⟩
      · obtain ⟨cut, hcut, rfl⟩ := Option.map_eq_some_iff.mp h
        obtain ⟨hl, hfirst⟩ := ih.1 cut hcut
        refine ⟨congrArg (a :: ·) hl, fun front back heq => ?_⟩
        obtain ⟨front, rfl, hfront⟩ := hcons front back heq
        exact Nat.succ_le_succ (hfirst front back hfront)
      · obtain ⟨front, -, hfront⟩ := hcons front back heq
        exact ih.2 (Option.map_eq_none_iff.mp h) front back hfront

theorem eq_of_cutAt (h : cutAt search l = some (before, after)) :
    l = before ++ search ++ after := ((cutAt_spec search l).1 _ h).1

theorem cutAt_eq_none_iff : cutAt search l = none ↔ ¬ search <:+: l := by
  constructor
  · rintro h ⟨front, back, heq⟩
    exact (cutAt_spec search l).2 h front back heq.symm
  · intro h
    cases hcut : cutAt search l with
    | none => rfl
    | some cut =>
      obtain ⟨hl, -⟩ := (cutAt_spec search l).1 cut hcut
      exact absurd ⟨cut.1, cut.2, hl.symm⟩ h

/-- An occurrence with none before it is the one that is found. -/
theorem cutAt_of_first (hfirst : ∀ front back,
    before ++ search ++ after = front ++ search ++ back → before.length ≤ front.length) :
    cutAt search (before ++ search ++ after) = some (before, after) := by
  cases hcut : cutAt search (before ++ search ++ after) with
  | none => exact absurd ⟨before, after, rfl⟩ (cutAt_eq_none_iff.mp hcut)
  | some cut =>
    obtain ⟨heq, hle⟩ := (cutAt_spec _ _).1 cut hcut
    have hlength : before.length = cut.1.length :=
      Nat.le_antisymm (hfirst _ _ heq) (hle before after rfl)
    rw [List.append_assoc, List.append_assoc] at heq
    obtain ⟨hbefore, hrest⟩ := List.append_inj heq hlength
    rw [hbefore, List.append_cancel_left hrest]

theorem substituteFirst_eq_none_iff :
    substituteFirst search replacement l = none ↔ ¬ search <:+: l := by
  rw [substituteFirst, Option.map_eq_none_iff, cutAt_eq_none_iff]

/-! ### Undisturbed replacing -/

/-- While the occurrences between the parts are replaced from left to right, the first occurrence
is the next one or has the same effect, and in the end there is none. -/
structure Undisturbed (search replacement : List α) (parts : List (List α)) : Prop where
  next : ∀ done part rest, done ≠ [] → parts = done ++ part :: rest →
    substituteFirst search replacement (mixed search replacement done (part :: rest)) =
      some (mixed search replacement (done ++ [part]) rest)
  done : ¬ search <:+: replacement.intercalate parts

theorem substituteAll_mixed {parts : List (List α)} (h : Undisturbed search replacement parts)
    {done rest : List (List α)} (hne : done ≠ []) (hparts : parts = done ++ rest) :
    substituteAll search replacement (rest.length + 1) (mixed search replacement done rest) =
      some (replacement.intercalate parts) := by
  induction rest generalizing done with
  | nil =>
    rw [List.append_nil] at hparts
    rw [mixed_nil, substituteAll, substituteFirst_eq_none_iff.mpr (hparts ▸ h.done), hparts]
  | cons part rest ih =>
    rw [List.length_cons, substituteAll, h.next done part rest hne hparts]
    exact ih (by simp) (by rw [hparts, List.append_assoc]; rfl)

/-- Undisturbed replacing replaces each occurrence once. -/
theorem Undisturbed.substituteAll_intercalate {parts : List (List α)} (hne : parts ≠ [])
    (h : Undisturbed search replacement parts) :
    ∃ fuel, substituteAll search replacement fuel (search.intercalate parts) =
      some (replacement.intercalate parts) := by
  obtain ⟨part, rest, rfl⟩ := List.exists_cons_of_ne_nil hne
  refine ⟨rest.length + 1, ?_⟩
  rw [← mixed_singleton search replacement]
  exact substituteAll_mixed h (by simp) rfl

/-- What comes out has no occurrence. -/
theorem not_infix_of_substituteAll {fuel : ℕ}
    (h : substituteAll search replacement fuel l = some l') : ¬ search <:+: l' := by
  induction fuel generalizing l with
  | zero => cases h
  | succ fuel ih =>
    rw [substituteAll] at h
    split at h
    next hnone => exact Option.some.inj h ▸ substituteFirst_eq_none_iff.mp hnone
    next => exact ih h

/-- More fuel does not change what comes out. -/
theorem substituteAll_mono {fuel more : ℕ} (hle : fuel ≤ more)
    (h : substituteAll search replacement fuel l = some l') :
    substituteAll search replacement more l = some l' := by
  induction fuel generalizing l more with
  | zero => cases h
  | succ fuel ih =>
    obtain ⟨more, rfl⟩ := Nat.exists_eq_succ_of_ne_zero (Nat.ne_of_gt (Nat.lt_of_lt_of_le
      (Nat.succ_pos fuel) hle))
    rw [substituteAll] at h ⊢
    cases hfirst : substituteFirst search replacement l with
    | none => rwa [hfirst] at h
    | some next =>
      rw [hfirst] at h
      exact ih (Nat.le_of_succ_le_succ hle) h

/-- A replacement that contains the search list is never done with. -/
theorem substituteAll_eq_none (hinside : search <:+: replacement) (h : search <:+: l) (fuel : ℕ) :
    substituteAll search replacement fuel l = none := by
  induction fuel generalizing l with
  | zero => rfl
  | succ fuel ih =>
    cases hcut : cutAt search l with
    | none => exact absurd h (cutAt_eq_none_iff.mp hcut)
    | some cut =>
      rw [substituteAll, substituteFirst, hcut]
      exact ih (hinside.trans ⟨cut.1, cut.2, rfl⟩)

/-! ### Replacing that ends -/

/-- Every replacement takes a mark away that the search list has more of. -/
theorem exists_substituteAll {mark : α} (hmark : replacement.count mark < search.count mark)
    {fuel : ℕ} (hfuel : l.count mark < fuel) :
    ∃ l', substituteAll search replacement fuel l = some l' := by
  induction fuel generalizing l with
  | zero => exact absurd hfuel (Nat.not_lt_zero _)
  | succ fuel ih =>
    cases hcut : cutAt search l with
    | none =>
      refine ⟨l, ?_⟩
      rw [substituteAll, substituteFirst, hcut]
      rfl
    | some cut =>
      rw [substituteAll, substituteFirst, hcut]
      apply ih
      rw [eq_of_cutAt hcut] at hfuel
      simp only [List.count_append] at hfuel ⊢
      omega

/-- A single element is taken out wherever it is. -/
theorem substituteAll_singleton_nil {a : α} {fuel : ℕ} (hfuel : l.count a < fuel) :
    substituteAll [a] [] fuel l = some (l.filter (· ≠ a)) := by
  induction fuel generalizing l with
  | zero => exact absurd hfuel (Nat.not_lt_zero _)
  | succ fuel ih =>
    cases hcut : cutAt [a] l with
    | none =>
      have hmem : a ∉ l := by
        intro h
        obtain ⟨front, back, rfl⟩ := List.append_of_mem h
        exact cutAt_eq_none_iff.mp hcut ⟨front, back, by simp⟩
      rw [substituteAll, substituteFirst, hcut, List.filter_eq_self.mpr]
      · rfl
      · exact fun b hb => decide_eq_true fun heq => hmem (heq ▸ hb)
    | some cut =>
      have hl := eq_of_cutAt hcut
      rw [substituteAll, substituteFirst, hcut]
      change substituteAll [a] [] fuel (cut.1 ++ [] ++ cut.2) = _
      rw [ih, hl]
      · simp
      · rw [hl] at hfuel
        simp only [List.count_append, List.count_singleton_self, List.count_nil] at hfuel ⊢
        omega

/-- The cuts are at all the occurrences that do not overlap an earlier one. -/
theorem not_infix_of_mem_cuts (hne : search ≠ []) {n : ℕ} {part : List α} (hn : l.length ≤ n)
    (h : part ∈ cuts search n l) : ¬ search <:+: part := by
  induction n generalizing l with
  | zero =>
    obtain rfl := List.length_eq_zero_iff.mp (Nat.le_zero.mp hn)
    obtain rfl := List.mem_singleton.mp h
    exact fun hinside => hne (List.infix_nil.mp hinside)
  | succ n ih =>
    rw [cuts] at h
    split at h
    next hcut => exact List.mem_singleton.mp h ▸ cutAt_eq_none_iff.mp hcut
    next before after hcut =>
      have hl := eq_of_cutAt hcut
      rcases List.mem_cons.mp h with rfl | hafter
      · rintro ⟨front, back, heq⟩
        have hfirst := ((cutAt_spec search l).1 _ hcut).2 front (back ++ search ++ after) (by
          rw [hl, ← heq]
          simp only [List.append_assoc])
        have hlength := congrArg List.length heq
        have hpos := List.length_pos_iff.mpr hne
        simp only [List.length_append] at hlength hfirst
        omega
      · have hlength := congrArg List.length hl
        have hpos := List.length_pos_iff.mpr hne
        simp only [List.length_append] at hlength
        exact ih (by omega) hafter

theorem intercalate_cuts (search : List α) (n : ℕ) (l : List α) :
    search.intercalate (cuts search n l) = l ∧ cuts search n l ≠ [] := by
  induction n generalizing l with
  | zero => exact ⟨List.intercalate_singleton, List.cons_ne_nil _ _⟩
  | succ n ih =>
    rw [cuts]
    split
    next => exact ⟨List.intercalate_singleton, List.cons_ne_nil _ _⟩
    next before after hcut =>
      obtain ⟨hjoin, hne⟩ := ih after
      refine ⟨?_, List.cons_ne_nil _ _⟩
      rw [List.intercalate_cons_of_ne_nil hne, hjoin, eq_of_cutAt hcut]

/-! ### What may disturb it -/

omit [DecidableEq α] in
/-- An occurrence that starts before another one and not behind its text overlaps it. -/
theorem overlap {text : List α} (heq : text ++ search ++ after = front ++ search ++ back)
    (hlt : front.length < text.length) (hfree : ¬ search <:+: text) :
    ∃ left right, text = front ++ left ∧ search = left ++ right ∧ left ≠ [] ∧ right ≠ [] ∧
      right <+: search := by
  obtain ⟨left, rfl⟩ : front <+: text := by
    refine @List.prefix_of_prefix_length_le _ _ _ (text ++ search ++ after) ?_ ?_ hlt.le
    · exact ⟨search ++ back, by rw [heq, List.append_assoc]⟩
    · exact ⟨search ++ after, by rw [List.append_assoc]⟩
  have hrest : left ++ (search ++ after) = search ++ back := by
    rw [List.append_assoc, List.append_assoc, List.append_assoc] at heq
    exact List.append_cancel_left heq
  have hlength : left.length < search.length := by
    by_contra hle
    have hpre : search <+: left := List.prefix_of_prefix_length_le
      ⟨back, hrest.symm⟩ (List.prefix_append ..) (Nat.le_of_not_lt hle)
    exact hfree (hpre.isInfix.trans (List.suffix_append ..).isInfix)
  obtain ⟨right, hright⟩ : left <+: search := List.prefix_of_prefix_length_le
    ⟨search ++ after, rfl⟩ ⟨back, hrest.symm⟩ hlength.le
  have hpre : right <+: search := by
    have htail : search ++ after = right ++ back := by
      refine @List.append_cancel_left _ left _ _ ?_
      rw [hrest, ← List.append_assoc, hright]
    apply List.prefix_of_prefix_length_le ⟨back, htail.symm⟩ (List.prefix_append ..)
    rw [← hright, List.length_append]
    exact Nat.le_add_left ..
  refine ⟨left, right, rfl, hright.symm, ?_, ?_, hpre⟩
  · rintro rfl
    rw [List.append_nil] at hlt
    exact absurd hlt (lt_irrefl _)
  · rintro rfl
    rw [← hright, List.append_nil] at hlength
    exact absurd hlength (lt_irrefl _)

section Head
variable {head : α} {tail : List α} {parts : List (List α)}

/-- If the first character of the search list comes only once in it, occurrences do not overlap:
nothing disturbs the replacing as long as no new ones arise. -/
theorem undisturbed_of_head (hhead : head ∉ tail)
    (hdone : ¬ head :: tail <:+: replacement.intercalate parts) :
    Undisturbed (head :: tail) replacement parts where
  done := hdone
  next done part rest hne hparts := by
    rw [mixed_cons, mixed_done hne]
    have hfree : ¬ head :: tail <:+: replacement.intercalate done := fun hinside => hdone <| by
      rw [hparts, intercalate_append_eq hne]
      exact hinside.trans (List.prefix_append ..).isInfix
    rw [substituteFirst, cutAt_of_first, Option.map_some]
    intro front back heq
    by_contra hlt
    obtain ⟨left, right, -, hsearch, hleft, hright, hpre⟩ :=
      overlap heq (Nat.lt_of_not_le hlt) hfree
    obtain ⟨c, left, rfl⟩ := List.exists_cons_of_ne_nil hleft
    obtain ⟨d, right, rfl⟩ := List.exists_cons_of_ne_nil hright
    obtain ⟨-, rfl⟩ := List.cons.inj hsearch
    obtain ⟨more, hmore⟩ := hpre
    obtain rfl : d = head := (List.cons.inj hmore).1
    exact hhead (List.mem_append_right _ (List.mem_cons_self ..))

/-- Then replacing over and over replaces each occurrence once exactly if no new one arises. -/
theorem substituteAll_iff_of_head (hhead : head ∉ tail) (hne : parts ≠ []) :
    (∃ fuel, substituteAll (head :: tail) replacement fuel ((head :: tail).intercalate parts) =
      some (replacement.intercalate parts)) ↔
      ¬ head :: tail <:+: replacement.intercalate parts :=
  ⟨fun ⟨_, h⟩ => not_infix_of_substituteAll h,
    fun h => (undisturbed_of_head hhead h).substituteAll_intercalate hne⟩

end Head

section Derailed
variable {common x r target : List α} {a b : α}

/-- A text that has gone wrong behind a common beginning of search and replacement, where the
target goes on like the search list. -/
def Derailed (common : List α) (a b : α) (target l : List α) : Prop :=
  ∃ front back, l = front ++ common ++ a :: back ∧ front ++ common ++ [b] <+: target

omit [DecidableEq α] in
theorem Derailed.ne (hab : a ≠ b) (h : Derailed common a b target l) : l ≠ target := by
  rintro rfl
  obtain ⟨front, back, heq, more, hmore⟩ := h
  rw [heq, List.append_assoc (front ++ common), List.append_cancel_left_eq] at hmore
  exact hab (List.cons.inj hmore).1.symm

/-- Replacing the first occurrence does not repair it. -/
theorem Derailed.step (hab : a ≠ b) (hfree : ¬ common ++ b :: x <:+: target)
    (h : Derailed common a b target l) (hcut : cutAt (common ++ b :: x) l = some (before, after)) :
    Derailed common a b target (before ++ (common ++ a :: r) ++ after) := by
  obtain ⟨front, back, hl, htarget⟩ := h
  have heq := eq_of_cutAt hcut
  rw [hl] at heq
  have hbefore : before <+: front ++ common ++ a :: back :=
    ⟨common ++ b :: x ++ after, by rw [heq]; simp only [List.append_assoc]⟩
  have hstart : front ++ common ++ [a] <+: front ++ common ++ a :: back := ⟨back, by simp⟩
  rcases Nat.lt_or_ge (front ++ common).length before.length with hlong | hshort
  · -- the occurrence is behind the place
    obtain ⟨middle, rfl⟩ := List.prefix_of_prefix_length_le hstart hbefore (by
      simpa only [List.length_append, List.length_singleton] using Nat.succ_le_of_lt hlong)
    exact ⟨front, middle ++ (common ++ a :: r) ++ after, by simp, htarget⟩
  have hcover : (front ++ common).length < (before ++ (common ++ b :: x)).length := by
    by_contra hle
    have hinside : before ++ (common ++ b :: x) <+: front ++ common :=
      List.prefix_of_prefix_length_le ⟨after, heq.symm⟩ ⟨a :: back, rfl⟩ (Nat.le_of_not_lt hle)
    apply hfree
    refine (List.suffix_append before _).isInfix.trans (hinside.isInfix.trans ?_)
    exact (List.prefix_append _ [b]).isInfix.trans htarget.isInfix
  have hsearch : common ++ [b] <+: common ++ b :: x := ⟨x, by simp⟩
  rcases Nat.lt_or_ge before.length front.length with hleft | hright
  · -- it starts before the beginning: the place moves to the left
    obtain ⟨gap, rfl⟩ : before <+: front := List.prefix_of_prefix_length_le hbefore
      ⟨common ++ a :: back, by rw [List.append_assoc]⟩ hleft.le
    have hrest : gap ++ common ++ a :: back = common ++ b :: x ++ after := by
      simpa only [List.append_assoc, List.append_cancel_left_eq] using heq
    have hgap : gap ++ common <+: common ++ b :: x := by
      apply List.prefix_of_prefix_length_le ⟨a :: back, hrest⟩ (List.prefix_append ..)
      simp only [List.length_append] at hcover ⊢
      omega
    have hcommon : common ++ [b] <+: gap ++ common := by
      apply List.prefix_of_prefix_length_le hsearch hgap
      simp only [List.length_append, List.length_singleton] at hleft ⊢
      omega
    refine ⟨before, r ++ after, by simp, ?_⟩
    rw [List.append_assoc]
    refine ((List.prefix_append_right_inj before).mpr hcommon).trans ?_
    refine List.IsPrefix.trans ⟨[b], ?_⟩ htarget
    simp only [List.append_assoc]
  · -- it starts within the common beginning, which is restored by the replacement
    obtain ⟨left, rfl⟩ : front <+: before := List.prefix_of_prefix_length_le
      ⟨common ++ a :: back, by rw [List.append_assoc]⟩ hbefore hright
    obtain ⟨right, hcommon⟩ : left <+: common := by
      have hpre : front ++ left <+: front ++ common :=
        List.prefix_of_prefix_length_le hbefore ⟨a :: back, rfl⟩ hshort
      exact (List.prefix_append_right_inj front).mp hpre
    have hrest : right ++ a :: back = common ++ b :: x ++ after := by
      refine @List.append_cancel_left _ (front ++ left) _ _ ?_
      rw [← List.append_assoc, List.append_assoc front, hcommon, heq, List.append_assoc]
    have hlength := congrArg List.length hcommon
    rw [List.length_append] at hlength
    rcases List.eq_nil_or_concat' left with rfl | ⟨init, last, rfl⟩
    · obtain rfl : right = common := hcommon
      rw [List.append_assoc, List.append_cancel_left_eq] at hrest
      exact absurd (List.cons.inj hrest).1 hab
    · obtain ⟨middle, hmiddle⟩ : right ++ [a] <+: common := by
        refine @List.prefix_of_prefix_length_le _ _ _ (common ++ b :: x ++ after) ?_ ?_ ?_
        · exact ⟨back, by rw [← hrest, List.append_assoc]; rfl⟩
        · exact ⟨b :: x ++ after, by rw [List.append_assoc]⟩
        · simp only [List.length_append, List.length_singleton] at hlength ⊢
          omega
      refine ⟨front, middle ++ a :: r ++ after, ?_, htarget⟩
      calc front ++ (init ++ [last]) ++ (common ++ a :: r) ++ after
          = front ++ (init ++ [last]) ++ (right ++ [a] ++ middle ++ a :: r) ++ after := by
            rw [hmiddle]
        _ = front ++ (init ++ [last] ++ right) ++ a :: (middle ++ a :: r ++ after) := by simp
        _ = front ++ common ++ a :: (middle ++ a :: r ++ after) := by rw [hcommon]

/-- A derailed text never becomes the target. -/
theorem Derailed.substituteAll_ne (hab : a ≠ b) (hfree : ¬ common ++ b :: x <:+: target)
    (h : Derailed common a b target l) (fuel : ℕ) :
    substituteAll (common ++ b :: x) (common ++ a :: r) fuel l ≠ some target := by
  induction fuel generalizing l with
  | zero => exact fun hnone => by cases hnone
  | succ fuel ih =>
    rw [substituteAll, substituteFirst]
    cases hcut : cutAt (common ++ b :: x) l with
    | none => exact fun hl => h.ne hab (Option.some.inj hl)
    | some cut => exact ih (h.step hab hfree hcut)

end Derailed

omit [DecidableEq α] in
/-- Two lists of which neither begins with the other one part somewhere. -/
theorem exists_fork {l k : List α} (hl : ¬ l <+: k) (hk : ¬ k <+: l) :
    ∃ common a b l' k', l = common ++ a :: l' ∧ k = common ++ b :: k' ∧ a ≠ b := by
  induction l generalizing k with
  | nil => exact absurd List.nil_prefix hl
  | cons a l ih =>
    rcases k with _ | ⟨b, k⟩
    · exact absurd List.nil_prefix hk
    · by_cases hab : a = b
      · subst hab
        rw [List.cons_prefix_cons] at hl hk
        obtain ⟨common, c, d, l', k', rfl, rfl, hcd⟩ :=
          ih (fun h => hl ⟨rfl, h⟩) fun h => hk ⟨rfl, h⟩
        exact ⟨a :: common, c, d, l', k', rfl, rfl, hcd⟩
      · exact ⟨[], a, b, l, k, rfl, rfl, hab⟩

omit [DecidableEq α] in
/-- What is common to search and replacement goes on like the search list behind an overlap. -/
theorem fork_begins {common x left right : List α} {b : α}
    (hoverlap : common ++ b :: x = left ++ right) (hpre : right <+: common ++ b :: x)
    (hne : left ≠ []) : common ++ [b] <+: left ++ common := by
  have hsearch : common ++ [b] <+: left ++ right := ⟨x, by rw [← hoverlap]; simp⟩
  rcases Nat.lt_or_ge common.length left.length with hshort | hlong
  · have hleft : common ++ [b] <+: left :=
      List.prefix_of_prefix_length_le hsearch (List.prefix_append ..) (by simpa using hshort)
    exact hleft.trans (List.prefix_append ..)
  · obtain ⟨more, hmore⟩ : left <+: common ++ [b] :=
      List.prefix_of_prefix_length_le (List.prefix_append ..) hsearch (by simp; omega)
    rw [← hmore, List.prefix_append_right_inj] at hsearch ⊢
    have hlength := congrArg List.length hmore
    simp only [List.length_append, List.length_singleton] at hlength
    have hpos := List.length_pos_iff.mpr hne
    exact List.prefix_of_prefix_length_le (hsearch.trans hpre) (List.prefix_append ..) (by omega)

section Converse
variable {parts : List (List α)}

/-- If the first occurrence is not the next one, and its effect another one, the text derails. -/
theorem next_of_substituteAll {done rest : List (List α)} {part : List α} {fuel : ℕ}
    (hnot : ¬ replacement <+: search) (hne : done ≠ [])
    (h : substituteAll search replacement fuel (mixed search replacement done (part :: rest)) =
      some (replacement.intercalate (done ++ part :: rest))) :
    substituteFirst search replacement (mixed search replacement done (part :: rest)) =
      some (mixed search replacement (done ++ [part]) rest) := by
  have hfree := not_infix_of_substituteAll h
  rw [intercalate_append_eq hne, List.flatMap_cons] at h hfree
  rw [mixed_cons] at h ⊢
  rw [mixed_done hne]
  rcases fuel with _ | fuel
  · cases h
  cases hcut : cutAt search (replacement.intercalate done ++ search ++
    (part ++ rest.flatMap (search ++ ·))) with
  | none => exact absurd ⟨_, _, rfl⟩ (cutAt_eq_none_iff.mp hcut)
  | some cut =>
    obtain ⟨heq, hfirst⟩ := (cutAt_spec _ _).1 cut hcut
    rw [substituteAll, substituteFirst, hcut] at h
    rw [substituteFirst, hcut, Option.map_some]
    rcases Nat.lt_or_eq_of_le (hfirst _ _ rfl) with hlt | hsame
    · exfalso
      have hsearch : ¬ search <+: replacement := fun hpre => hfree <| by
        refine hpre.isInfix.trans ⟨replacement.intercalate done,
          part ++ rest.flatMap (replacement ++ ·), ?_⟩
        simp only [List.append_assoc]
      have hdone : ¬ search <:+: replacement.intercalate done := fun hinside =>
        hfree (hinside.trans (List.prefix_append ..).isInfix)
      obtain ⟨left, right, hleft, hoverlap, hne', -, hpre⟩ := overlap heq hlt hdone
      obtain ⟨common, a, b, r, x, rfl, rfl, hab⟩ := exists_fork hnot hsearch
      refine Derailed.substituteAll_ne hab hfree ⟨cut.1, r ++ cut.2, by simp, ?_⟩ fuel h
      rw [hleft, List.append_assoc, List.append_assoc, List.prefix_append_right_inj]
      refine (fork_begins hoverlap hpre hne').trans ?_
      rw [List.prefix_append_right_inj]
      exact ⟨a :: r ++ part ++ rest.flatMap ((common ++ a :: r) ++ ·), by simp⟩
    · rw [List.append_assoc, List.append_assoc cut.1] at heq
      obtain ⟨hbefore, hrest⟩ := List.append_inj heq hsame.symm
      rw [← hbefore, ← List.append_cancel_left hrest]

/-- If the replacement is no beginning of the search list, replacing over and over replaces each
occurrence once exactly if it is undisturbed. -/
theorem substituteAll_iff (hnot : ¬ replacement <+: search) (hne : parts ≠ []) :
    (∃ fuel, substituteAll search replacement fuel (search.intercalate parts) =
      some (replacement.intercalate parts)) ↔ Undisturbed search replacement parts := by
  refine ⟨fun ⟨fuel, h⟩ => ?_, fun h => h.substituteAll_intercalate hne⟩
  have hstage : ∀ done rest, done ≠ [] → parts = done ++ rest → ∃ fuel,
      substituteAll search replacement fuel (mixed search replacement done rest) =
        some (replacement.intercalate parts) := by
    intro done
    induction done using List.reverseRecOn with
    | nil => exact fun _ hnil => absurd rfl hnil
    | append_singleton done part ih =>
      intro rest _ hparts
      by_cases hdone : done = []
      · subst hdone
        refine ⟨fuel, ?_⟩
        rw [List.nil_append, mixed_singleton]
        rwa [hparts] at h ⊢
      · obtain ⟨fuel', hfuel'⟩ := ih (part :: rest) hdone (by rw [hparts, List.append_assoc]; rfl)
        rw [hparts, List.append_assoc] at hfuel'
        have hnext := next_of_substituteAll hnot hdone hfuel'
        rcases fuel' with _ | fuel'
        · cases hfuel'
        · rw [substituteAll, hnext] at hfuel'
          exact ⟨fuel', by rw [hparts, List.append_assoc]; exact hfuel'⟩
  refine ⟨fun done part rest hdone hparts => ?_, not_infix_of_substituteAll h⟩
  obtain ⟨fuel', hfuel'⟩ := hstage done (part :: rest) hdone hparts
  rw [hparts] at hfuel'
  exact next_of_substituteAll hnot hdone hfuel'

end Converse

end Substitution
