import Mathlib.Tactic

/-! What it means to split a list at every separator, and that `List.splitOnP` does it. -/

namespace Splitting
variable {α : Type*} {p : α → Bool} {l : List α} {parts : List (List α)}

/-- A list is free of separators, or there is a first one. -/
theorem clean_or_first (p : α → Bool) (l : List α) : (∀ a ∈ l, p a = false) ∨
    ∃ part sep rest, l = part ++ sep :: rest ∧ (∀ a ∈ part, p a = false) ∧ p sep = true := by
  induction l with
  | nil => exact Or.inl fun _ ha => absurd ha List.not_mem_nil
  | cons a l ih =>
    cases ha : p a with
    | true => exact Or.inr ⟨[], a, l, rfl, fun _ hb => absurd hb List.not_mem_nil, ha⟩
    | false =>
      rcases ih with hclean | ⟨part, sep, rest, rfl, hpart, hsep⟩
      · exact Or.inl (List.forall_mem_cons.mpr ⟨ha, hclean⟩)
      · exact Or.inr ⟨a :: part, sep, rest, rfl, List.forall_mem_cons.mpr ⟨ha, hpart⟩, hsep⟩

theorem findIdx?_first {part : List α} {sep : α} (rest : List α) (hpart : ∀ a ∈ part, p a = false)
    (hsep : p sep = true) : (part ++ sep :: rest).findIdx? p = some part.length := by
  induction part with
  | nil => rw [List.nil_append, List.findIdx?_cons, if_pos hsep, List.length_nil]
  | cons a part ih =>
    obtain ⟨ha, hpart⟩ := List.forall_mem_cons.mp hpart
    rw [List.cons_append, List.findIdx?_cons, ha, if_neg Bool.false_ne_true, ih hpart]
    rfl

/-- The parts have no other elements than the list. -/
theorem mem_of_mem_splitOn [BEq α] {separator : α} {part : List α} (h : part ∈ l.splitOn separator)
    {c : α} (hc : c ∈ part) : c ∈ l := by
  induction l generalizing part with
  | nil =>
    obtain rfl := List.mem_singleton.mp h
    exact hc
  | cons d l ih =>
    rw [List.splitOn_cons_eq_if_modifyHead] at h
    split_ifs at h with hd
    · rcases List.mem_cons.mp h with rfl | h
      · cases hc
      · exact List.mem_cons_of_mem d (ih h hc)
    · obtain ⟨q, qs, hq⟩ := List.exists_cons_of_ne_nil (List.splitOn_ne_nil separator l)
      rw [hq, List.modifyHead_cons] at h
      rw [hq] at ih
      rcases List.mem_cons.mp h with rfl | h
      · rcases List.mem_cons.mp hc with rfl | hc
        · exact List.mem_cons_self
        · exact List.mem_cons_of_mem d (ih List.mem_cons_self hc)
      · exact List.mem_cons_of_mem d (ih (List.mem_cons_of_mem q h) hc)

theorem notMem_of_mem_splitOn [BEq α] [LawfulBEq α] {separator : α} {part : List α}
    (h : part ∈ l.splitOn separator) : separator ∉ part := by
  induction l generalizing part with
  | nil =>
    obtain rfl := List.mem_singleton.mp h
    exact List.not_mem_nil
  | cons d l ih =>
    rw [List.splitOn_cons_eq_if_modifyHead] at h
    split_ifs at h with hd
    · rcases List.mem_cons.mp h with rfl | h
      · exact List.not_mem_nil
      · exact ih h
    · obtain ⟨q, qs, hq⟩ := List.exists_cons_of_ne_nil (List.splitOn_ne_nil separator l)
      rw [hq, List.modifyHead_cons] at h
      rw [hq] at ih
      rcases List.mem_cons.mp h with rfl | h
      · intro hmem
        rcases List.mem_cons.mp hmem with rfl | hmem
        · exact hd (beq_self_eq_true _)
        · exact ih List.mem_cons_self hmem
      · exact ih (List.mem_cons_of_mem q h)

/-! ### Words in a list with a separator -/

section
variable {w a b : List α} {sep : α}

/-- A prefix without the separator ends before it. -/
theorem prefix_append_sep (hw : sep ∉ w) : w <+: a ++ sep :: b ↔ w <+: a := by
  refine ⟨fun h => ?_, fun h => h.trans (List.prefix_append a _)⟩
  induction a generalizing w with
  | nil =>
    cases w with
    | nil => exact List.nil_prefix
    | cons c w =>
      obtain ⟨rfl, -⟩ := List.cons_prefix_cons.mp h
      exact absurd List.mem_cons_self hw
  | cons d a ih =>
    cases w with
    | nil => exact List.nil_prefix
    | cons c w =>
      obtain ⟨rfl, hstarts⟩ := List.cons_prefix_cons.mp h
      have hw' : sep ∉ w := fun hmem => hw (List.mem_cons_of_mem c hmem)
      exact List.cons_prefix_cons.mpr ⟨rfl, ih hw' hstarts⟩

/-- A word without the separator stands on one side of it. -/
theorem infix_append_sep (hw : sep ∉ w) : w <:+: a ++ sep :: b ↔ w <:+: a ∨ w <:+: b := by
  induction a with
  | nil =>
    rw [List.nil_append, List.infix_cons_iff, ← List.nil_append (sep :: b), prefix_append_sep hw,
      List.infix_nil, List.prefix_nil]
  | cons d a ih =>
    rw [List.cons_append, List.infix_cons_iff, List.infix_cons_iff, ih, ← List.cons_append,
      prefix_append_sep hw, or_assoc]

/-- A word that begins with the separator does not begin before the first one. -/
theorem infix_of_cons_sep (ha : sep ∉ a) (h : sep :: w <:+: a ++ sep :: b) :
    w <+: b ∨ sep :: w <:+: b := by
  induction a with
  | nil =>
    rw [List.nil_append, List.infix_cons_iff, List.cons_prefix_cons] at h
    exact h.imp_left And.right
  | cons d a ih =>
    rw [List.mem_cons, not_or] at ha
    rw [List.cons_append, List.infix_cons_iff, List.cons_prefix_cons] at h
    rcases h with ⟨heq, -⟩ | h
    · exact absurd heq ha.1
    · exact ih ha.2 h

end

theorem mem_intercalate {a : α} {separator : List α}
    (ha : a ∈ separator.intercalate parts) : a ∈ separator ∨ ∃ part ∈ parts, a ∈ part := by
  induction parts with
  | nil => simp [List.intercalate] at ha
  | cons part parts ih =>
    cases parts with
    | nil => exact Or.inr ⟨part, List.mem_cons_self, by simpa using ha⟩
    | cons part' parts =>
      rw [List.intercalate_cons_cons, List.mem_append, List.mem_append] at ha
      rcases ha with (ha | ha) | ha
      · exact Or.inr ⟨part, List.mem_cons_self, ha⟩
      · exact Or.inl ha
      · exact (ih ha).imp_right fun ⟨other, hother, ha⟩ =>
          ⟨other, List.mem_cons_of_mem part hother, ha⟩

/-- The parts of a list with its separators put back between them. -/
def interleave : List (List α) → List α → List α
  | part :: parts, sep :: seps => part ++ sep :: interleave parts seps
  | part :: _, [] => part
  | [], _ => []

/-- Every part is free of separators, and the separators of the list are all that is missing. -/
structure FullSplit (p : α → Bool) (l : List α) (parts : List (List α)) : Prop where
  length_eq : parts.length = l.countP p + 1
  clean : ∀ part ∈ parts, ∀ a ∈ part, p a = false
  interleaved : interleave parts (l.filter p) = l

theorem fullSplit_nil (p : α → Bool) : FullSplit p [] [[]] where
  length_eq := rfl
  clean part hpart a ha := by
    obtain rfl := List.mem_singleton.mp hpart
    exact absurd ha List.not_mem_nil
  interleaved := rfl

theorem FullSplit.cons_sep {a : α} (ha : p a = true) (h : FullSplit p l parts) :
    FullSplit p (a :: l) ([] :: parts) where
  length_eq := by rw [List.length_cons, h.length_eq, List.countP_cons_of_pos ha]
  clean := List.forall_mem_cons.mpr ⟨fun _ hb => absurd hb List.not_mem_nil, h.clean⟩
  interleaved := by
    rw [List.filter_cons_of_pos ha, interleave, h.interleaved]
    rfl

theorem interleave_cons_head (a : α) (part : List α) (parts : List (List α)) (seps : List α) :
    interleave ((a :: part) :: parts) seps = a :: interleave (part :: parts) seps := by
  cases seps <;> rfl

theorem FullSplit.cons_other {a : α} (ha : p a = false) {part : List α}
    (h : FullSplit p l (part :: parts)) : FullSplit p (a :: l) ((a :: part) :: parts) where
  length_eq := by
    have hlength := h.length_eq
    rwa [List.length_cons, ← List.countP_cons_of_neg (a := a) (by simp [ha]),
      ← List.length_cons (a := a :: part)] at hlength
  clean := by
    obtain ⟨hpart, hparts⟩ := List.forall_mem_cons.mp h.clean
    exact List.forall_mem_cons.mpr ⟨List.forall_mem_cons.mpr ⟨ha, hpart⟩, hparts⟩
  interleaved := by
    rw [List.filter_cons_of_neg (by simp [ha]), interleave_cons_head, h.interleaved]

theorem fullSplit_splitOnP (p : α → Bool) (l : List α) : FullSplit p l (l.splitOnP p) := by
  induction l with
  | nil => exact fullSplit_nil p
  | cons a l ih =>
    rw [List.splitOnP_cons_eq_if_modifyHead]
    cases ha : p a with
    | true =>
      rw [if_pos rfl]
      exact ih.cons_sep ha
    | false =>
      rw [if_neg Bool.false_ne_true]
      obtain ⟨part, parts, hparts⟩ :=
        List.exists_cons_of_ne_nil (@List.splitOnP_ne_nil _ p l)
      rw [hparts] at ih ⊢
      exact ih.cons_other ha

end Splitting
