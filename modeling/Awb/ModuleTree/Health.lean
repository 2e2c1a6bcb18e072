import Awb.Builder.Paths
import Mathlib.Data.List.ProdSigma

/-! The health check of a module when a model is read: the types it requires are compared with
those in the model's file, by taking what is in both from a copy of each list. -/

namespace Awb.ModuleTree

/-- `delete` of an element: a hole, but at the end of the array it becomes shorter. -/
def deleteElem (array : List (Option Text)) (n : ℕ) : List (Option Text) :=
  if n + 1 = array.length then (array.set n none).rdropWhile Option.isNone else array.set n none

/-- The copies of the lists, from which matches are removed. -/
structure Leftover where
  awbRequires : List Text
  apmRequires : List (Option Text)

/-- A match at an index of the types in the model's file. -/
def Leftover.compare (r : Text) (s : Leftover) (item : Text × ℕ) : Leftover :=
  if r = item.1 then
    { awbRequires := s.awbRequires.drop 1, apmRequires := deleteElem s.apmRequires item.2 }
  else s

/-- The two loops. -/
def leftover (awbRequires apmRequires : List Text) : Leftover :=
  awbRequires.foldl (fun s r => apmRequires.zipIdx.foldl (Leftover.compare r) s)
    { awbRequires := awbRequires, apmRequires := apmRequires.map some }

/-- A last index that is positive, in one of the copies. -/
def requiresIsStale (awbRequires apmRequires : List Text) : Bool :=
  let s := leftover awbRequires apmRequires
  1 < s.awbRequires.length || 1 < s.apmRequires.length

/-- The pairs of equal types in two lists. -/
def matchingTypes (awbRequires apmRequires : List Text) : ℕ :=
  (awbRequires ×ˢ apmRequires).countP fun p => p.1 = p.2

/-- A type is in one of the lists only. -/
def TypesDiffer (awbRequires apmRequires : List Text) : Prop :=
  ¬ ∀ t, t ∈ awbRequires ↔ t ∈ apmRequires

/-- Whatever the order of the items, the check finds whether the types differ. -/
def FindsStale (awbRequires apmRequires : List Text) : Prop :=
  ∀ items, items.Perm apmRequires →
    (requiresIsStale awbRequires items = true ↔ TypesDiffer awbRequires apmRequires)

/-! ### Holes -/

variable {awb apm : List Text} {array : List (Option Text)} {r : Text} {n i : ℕ}

theorem join_rdropWhile (array : List (Option Text)) (i : ℕ) :
    (array.rdropWhile Option.isNone)[i]?.join = array[i]?.join := by
  induction array using List.reverseRecOn with
  | nil => rfl
  | append_singleton array x ih =>
    cases x with
    | some t => rw [List.rdropWhile_concat_neg _ _ _ (by simp)]
    | none =>
      rw [List.rdropWhile_concat_pos _ _ _ rfl, ih]
      rcases Nat.lt_trichotomy i array.length with h | h | h
      · rw [List.getElem?_append_left h]
      · subst h
        rw [List.getElem?_concat_length, List.getElem?_eq_none le_rfl]
        rfl
      · rw [List.getElem?_eq_none h.le, List.getElem?_eq_none]
        rw [List.length_append, List.length_singleton]
        omega

/-- The copy has holes where items were deleted, and none at its end. -/
structure HasHoles (apm : List Text) (deleted : ℕ → Prop) (array : List (Option Text)) : Prop where
  holes : ∀ i, deleted i → array[i]?.join = none
  others : ∀ i, ¬ deleted i → array[i]?.join = apm[i]?
  last : array.getLast? ≠ some none

theorem hasHoles_map (apm : List Text) : HasHoles apm (fun _ => False) (apm.map some) where
  holes := fun _ h => h.elim
  others i _ := by
    rw [List.getElem?_map]
    cases apm[i]? <;> rfl
  last := by
    rw [List.getLast?_map]
    cases apm.getLast? <;> simp

theorem HasHoles.delete {deleted : ℕ → Prop} (h : HasHoles apm deleted array) (n : ℕ) :
    HasHoles apm (fun i => deleted i ∨ i = n) (deleteElem array n) := by
  have hset : ∀ i, (array.set n none)[i]?.join = if i = n then none else array[i]?.join := by
    intro i
    rw [List.getElem?_set]
    by_cases hi : n = i
    · subst hi
      rw [if_pos rfl, if_pos rfl]
      split <;> rfl
    · rw [if_neg hi, if_neg (Ne.symm hi)]
  have hdelete : ∀ i, (deleteElem array n)[i]?.join = if i = n then none else array[i]?.join := by
    intro i
    rw [deleteElem]
    split
    · rw [join_rdropWhile, hset]
    · rw [hset]
  refine ⟨fun i hi => ?_, fun i hi => ?_, ?_⟩
  · rw [hdelete]
    split
    · rfl
    next hne => exact h.holes i (hi.resolve_right hne)
  · obtain ⟨hnot, hne⟩ := not_or.mp hi
    rw [hdelete, if_neg hne]
    exact h.others i hnot
  · -- Only at its end the array becomes shorter, and then it has no hole there.
    rw [deleteElem]
    split
    · intro hlast
      obtain ⟨hne, hnone⟩ := List.mem_getLast?_eq_getLast hlast
      exact List.rdropWhile_last_not _ _ hne (by rw [← hnone]; rfl)
    next hnot =>
      rcases array.length.eq_zero_or_pos with hzero | hpos
      · rw [List.eq_nil_of_length_eq_zero hzero]
        simp
      rw [List.getLast?_eq_getElem?, List.length_set, List.getElem?_set_ne (by omega),
        ← List.getLast?_eq_getElem?]
      exact h.last

/-- The last index is positive if an item is left that was not the first one. -/
theorem HasHoles.one_lt_length {deleted : ℕ → Prop} (h : HasHoles apm deleted array) :
    1 < array.length ↔ ∃ i, 0 < i ∧ i < apm.length ∧ ¬ deleted i := by
  constructor
  · intro hlen
    obtain ⟨t, ht⟩ : ∃ t, array[array.length - 1]? = some (some t) := by
      rw [← List.getLast?_eq_getElem?]
      cases hlast : array.getLast? with
      | none => rw [List.getLast?_eq_none_iff.mp hlast] at hlen; cases hlen
      | some x =>
        cases x with
        | none => exact absurd hlast h.last
        | some t => exact ⟨t, rfl⟩
    have hjoin : array[array.length - 1]?.join = some t := by rw [ht]; rfl
    have hnot : ¬ deleted (array.length - 1) := fun hd => by
      rw [h.holes _ hd] at hjoin
      cases hjoin
    rw [h.others _ hnot] at hjoin
    exact ⟨_, by omega, (List.getElem?_eq_some_iff.mp hjoin).1, hnot⟩
  · rintro ⟨i, hpos, hi, hnot⟩
    have hother := h.others i hnot
    rw [List.getElem?_eq_getElem hi] at hother
    have hlt := (List.getElem?_eq_some_iff.mp (Option.join_eq_some_iff.mp hother)).1
    omega

/-! ### What is left over -/

theorem HasHoles.congr {deleted deleted' : ℕ → Prop} (h : HasHoles apm deleted array)
    (hiff : ∀ i, deleted i ↔ deleted' i) : HasHoles apm deleted' array := by
  have heq : deleted = deleted' := funext fun i => propext (hiff i)
  rwa [← heq]

variable {s : Leftover} {items : List (Text × ℕ)} {deleted : ℕ → Prop}

/-- The inner loop deletes the items with a type, and as many from the front of the other copy. -/
theorem foldl_compare_holes (h : HasHoles apm deleted s.apmRequires) :
    (items.foldl (Leftover.compare r) s).awbRequires =
        s.awbRequires.drop (items.countP fun item => r = item.1) ∧
      HasHoles apm (fun i => deleted i ∨ (r, i) ∈ items)
        (items.foldl (Leftover.compare r) s).apmRequires := by
  induction items generalizing s deleted with
  | nil => exact ⟨rfl, h.congr fun i => by simp⟩
  | cons item items ih =>
    obtain ⟨t, n⟩ := item
    rw [List.foldl_cons, List.countP_cons, Leftover.compare]
    by_cases ht : r = t
    · subst ht
      obtain ⟨hawb, hholes⟩ := ih (s := ⟨s.awbRequires.drop 1, deleteElem s.apmRequires n⟩)
        (h.delete n)
      rw [if_pos rfl]
      refine ⟨?_, hholes.congr fun i => ?_⟩
      · rw [hawb, List.drop_drop]
        simp [Nat.add_comm]
      · simp [or_assoc]
    · obtain ⟨hawb, hholes⟩ := ih h
      rw [if_neg ht]
      refine ⟨?_, hholes.congr fun i => ?_⟩
      · rw [hawb]
        simp [ht]
      · simp [ht]

/-- The outer loop, over the types that the module requires. -/
theorem foldl_holes {types : List Text} (h : HasHoles apm deleted s.apmRequires) :
    (types.foldl (fun s r => items.foldl (Leftover.compare r) s) s).awbRequires =
        s.awbRequires.drop ((types ×ˢ items).countP fun p => p.1 = p.2.1) ∧
      HasHoles apm (fun i => deleted i ∨ ∃ r ∈ types, (r, i) ∈ items)
        (types.foldl (fun s r => items.foldl (Leftover.compare r) s) s).apmRequires := by
  induction types generalizing s deleted with
  | nil => exact ⟨rfl, h.congr fun i => by simp⟩
  | cons r types ih =>
    obtain ⟨hawb, hholes⟩ := @foldl_compare_holes apm r s items deleted h
    obtain ⟨hawb', hholes'⟩ := ih hholes
    rw [List.foldl_cons]
    refine ⟨?_, hholes'.congr fun i => ?_⟩
    · rw [hawb', hawb, List.drop_drop, List.product_cons, List.countP_append, List.countP_map]
      rfl
    · simp [or_assoc]

/-- Two types of the module or more are left, or one of the items behind the first. -/
theorem requiresIsStale_iff :
    requiresIsStale awb apm = true ↔
      matchingTypes awb apm + 1 < awb.length ∨
        ∃ i t, 0 < i ∧ apm[i]? = some t ∧ t ∉ awb := by
  obtain ⟨hawb, hholes⟩ := @foldl_holes apm ⟨awb, apm.map some⟩ apm.zipIdx _ awb (hasHoles_map apm)
  have hcount : (awb ×ˢ apm.zipIdx).countP (fun p => p.1 = p.2.1) = matchingTypes awb apm := by
    rw [matchingTypes]
    clear hawb hholes
    induction awb with
    | nil => rfl
    | cons r awb ih =>
      have hitems : apm.zipIdx.countP (fun item => r = item.1) = apm.countP (r = ·) := by
        conv_rhs => rw [← List.zipIdx_map_fst 0 apm, List.countP_map]
        rfl
      rw [List.product_cons, List.product_cons, List.countP_append, List.countP_append, ih,
        List.countP_map, List.countP_map]
      exact congrArg (· + _) hitems
  have hlength : 1 < awb.length - matchingTypes awb apm ↔
      matchingTypes awb apm + 1 < awb.length := by omega
  rw [requiresIsStale, Bool.or_eq_true, decide_eq_true_iff, decide_eq_true_iff, leftover, hawb,
    hholes.one_lt_length, hcount, List.length_drop]
  refine or_congr hlength (exists_congr fun i => ?_)
  simp only [List.mem_zipIdx_iff_getElem?, false_or, List.getElem?_eq_some_iff]
  constructor
  · rintro ⟨hpos, hi, hnot⟩
    exact ⟨apm[i], hpos, ⟨hi, rfl⟩, fun hmem => hnot ⟨apm[i], hmem, hi, rfl⟩⟩
  · rintro ⟨t, hpos, ⟨hi, rfl⟩, hnot⟩
    refine ⟨hpos, hi, ?_⟩
    rintro ⟨r, hr, _, rfl⟩
    exact hnot hr

/-! ### Whether the types differ -/

/-- Each of the types finds its match if the lists have the same types. -/
theorem length_le_matchingTypes (h : ∀ r ∈ awb, r ∈ apm) : awb.length ≤ matchingTypes awb apm := by
  rw [matchingTypes]
  induction awb with
  | nil => exact Nat.zero_le _
  | cons r awb ih =>
    have hr : 0 < apm.countP (r = ·) :=
      List.countP_pos_iff.mpr ⟨r, h r List.mem_cons_self, decide_eq_true rfl⟩
    have hawb := ih fun r hr => h r (List.mem_cons_of_mem _ hr)
    have hcons : ((r :: awb) ×ˢ apm).countP (fun p => p.1 = p.2) =
        apm.countP (r = ·) + (awb ×ˢ apm).countP (fun p => p.1 = p.2) := by
      rw [List.product_cons, List.countP_append, List.countP_map]
      rfl
    rw [hcons, List.length_cons]
    omega

theorem matchingTypes_perm {items : List Text} (h : items.Perm apm) :
    matchingTypes awb items = matchingTypes awb apm := (h.product_left awb).countP_eq _

/-- What is found stale differs. -/
theorem typesDiffer_of_stale (h : requiresIsStale awb apm = true) : TypesDiffer awb apm := by
  intro hsame
  rcases requiresIsStale_iff.mp h with hlt | ⟨i, t, -, ht, hnot⟩
  · have := length_le_matchingTypes fun r hr => (hsame r).mp hr
    omega
  · exact hnot ((hsame t).mpr (List.mem_of_getElem? ht))

theorem typesDiffer_perm {items : List Text} (h : items.Perm apm) :
    TypesDiffer awb items ↔ TypesDiffer awb apm := by
  rw [TypesDiffer, TypesDiffer]
  simp only [h.mem_iff]

/-- Two items that are not required are not both the first one. -/
theorem exists_behind_first (h : 2 ≤ apm.countP (· ∉ awb)) :
    ∃ i t, 0 < i ∧ apm[i]? = some t ∧ t ∉ awb := by
  cases apm with
  | nil => cases h
  | cons first apm =>
    have hrest : 0 < apm.countP (· ∉ awb) := by
      rw [List.countP_cons] at h
      split at h <;> omega
    obtain ⟨t, ht, hnot⟩ := List.countP_pos_iff.mp hrest
    obtain ⟨i, hi⟩ := List.mem_iff_getElem?.mp ht
    exact ⟨i + 1, t, Nat.succ_pos i, hi, of_decide_eq_true hnot⟩

/-- If at most one item is not required, it can stand first. -/
theorem exists_perm_first (h : apm.countP (· ∉ awb) ≤ 1) :
    ∃ items : List Text, items.Perm apm ∧ ∀ i t, 0 < i → items[i]? = some t → t ∈ awb := by
  refine ⟨apm.filter (· ∉ awb) ++ apm.filter fun t => ¬ t ∉ awb, ?_, fun i t hpos ht => ?_⟩
  · simpa using List.filter_append_perm (fun t => decide (t ∉ awb)) apm
  · rw [List.countP_eq_length_filter] at h
    rw [List.getElem?_append_right (by omega)] at ht
    simpa using (List.mem_filter.mp (List.mem_of_getElem? ht)).2

/-- The check finds whether the types differ, whatever the order of the items, exactly if they are
the same, or two of the items are not required, or the module requires two types more than there
are matches. -/
theorem findsStale_iff (awbRequires apmRequires : List Text) :
    FindsStale awbRequires apmRequires ↔
      (∀ t, t ∈ awbRequires ↔ t ∈ apmRequires) ∨ 2 ≤ apmRequires.countP (· ∉ awbRequires) ∨
        matchingTypes awbRequires apmRequires + 2 ≤ awbRequires.length := by
  constructor
  · intro h
    by_contra hnot
    obtain ⟨hdiffer, hfew, hshort⟩ : TypesDiffer awbRequires apmRequires ∧
        apmRequires.countP (· ∉ awbRequires) ≤ 1 ∧
        awbRequires.length ≤ matchingTypes awbRequires apmRequires + 1 := by
      simp only [not_or, not_le] at hnot
      exact ⟨hnot.1, Nat.le_of_lt_succ hnot.2.1, Nat.le_of_lt_succ hnot.2.2⟩
    obtain ⟨items, hperm, hrest⟩ := exists_perm_first hfew
    rcases requiresIsStale_iff.mp ((h items hperm).mpr hdiffer) with hlt | ⟨i, t, hpos, ht, hmem⟩
    · rw [matchingTypes_perm hperm] at hlt
      omega
    · exact hmem (hrest i t hpos ht)
  · intro h items hperm
    refine ⟨fun hstale => (typesDiffer_perm hperm).mp (typesDiffer_of_stale hstale),
      fun hdiffer => requiresIsStale_iff.mpr ?_⟩
    rcases h with hsame | hmany | hlong
    · exact absurd hsame hdiffer
    · refine .inr (exists_behind_first ?_)
      rwa [hperm.countP_eq]
    · rw [matchingTypes_perm hperm]
      exact .inl (by omega)

/-- A type that the module does not require any more is not noticed if it is the only one. -/
theorem not_findsStale : ¬ FindsStale [] ["cache".toList] := by
  intro h
  have hstale := (h ["cache".toList] (.refl _)).mpr fun hsame => by
    simpa using hsame "cache".toList
  revert hstale
  decide

end Awb.ModuleTree
