import Mathlib.Tactic

/-! What a fallible function yields for the elements of a list, one after the other, in one list. -/

/-- All yields in order, `none` if there is none for some element. -/
def gather {α β : Type*} (f : α → Option (List β)) : List α → Option (List β)
  | [] => some []
  | a :: l => do
    let here ← f a
    let rest ← gather f l
    return here ++ rest

namespace Gather
variable {α β : Type*} {f g : α → Option (List β)} {l : List α} {r : List β}

theorem cons_eq_some {a : α} : gather f (a :: l) = some r ↔
    ∃ here rest, f a = some here ∧ gather f l = some rest ∧ r = here ++ rest := by
  simp only [gather, Option.bind_eq_bind, Option.bind_eq_some_iff, Option.pure_def,
    Option.some.injEq]
  constructor
  · rintro ⟨here, hhere, rest, hrest, rfl⟩
    exact ⟨here, rest, hhere, hrest, rfl⟩
  · rintro ⟨here, rest, hhere, hrest, rfl⟩
    exact ⟨here, hhere, rest, hrest, rfl⟩

/-- Every element has its yield in the list. -/
theorem yield_of_mem (h : gather f l = some r) {a : α} (ha : a ∈ l) :
    ∃ here, f a = some here ∧ here ⊆ r := by
  induction l generalizing r with
  | nil => simp at ha
  | cons a' l ih =>
    obtain ⟨here, rest, hhere, hrest, rfl⟩ := cons_eq_some.mp h
    rcases List.mem_cons.mp ha with rfl | ha
    · exact ⟨here, hhere, List.subset_append_left _ _⟩
    · obtain ⟨x, hx, hsub⟩ := ih hrest ha
      exact ⟨x, hx, List.Subset.trans hsub (List.subset_append_right _ _)⟩

/-- Everything in the list is some element's yield. -/
theorem source_of_mem (h : gather f l = some r) {b : β} (hb : b ∈ r) :
    ∃ a ∈ l, ∃ here, f a = some here ∧ b ∈ here := by
  induction l generalizing r with
  | nil =>
    obtain rfl := Option.some.inj h
    simp at hb
  | cons a l ih =>
    obtain ⟨here, rest, hhere, hrest, rfl⟩ := cons_eq_some.mp h
    rcases List.mem_append.mp hb with hb | hb
    · exact ⟨a, List.mem_cons_self .., here, hhere, hb⟩
    · obtain ⟨a', ha', x, hx, hmem⟩ := ih hrest hb
      exact ⟨a', List.mem_cons_of_mem _ ha', x, hx, hmem⟩

/-- If every element has its yield, there is a list of all. -/
theorem exists_of_forall (h : ∀ a ∈ l, ∃ here, f a = some here) : ∃ r, gather f l = some r := by
  induction l with
  | nil => exact ⟨[], rfl⟩
  | cons a l ih =>
    obtain ⟨hhere, hmore⟩ := List.forall_mem_cons.mp h
    obtain ⟨here, hhere⟩ := hhere
    obtain ⟨rest, hrest⟩ := ih hmore
    exact ⟨here ++ rest, cons_eq_some.mpr ⟨here, rest, hhere, hrest, rfl⟩⟩

/-- What is picked from the list is in the order of the elements, if it is from each yield. -/
theorem filterMap_sublist {γ : Type*} {pick : β → Option γ} {k : α → List γ}
    (h : gather f l = some r)
    (hk : ∀ a ∈ l, ∀ here, f a = some here → (here.filterMap pick).Sublist (k a)) :
    (r.filterMap pick).Sublist (l.flatMap k) := by
  induction l generalizing r with
  | nil =>
    obtain rfl := Option.some.inj h
    simp
  | cons a l ih =>
    obtain ⟨here, rest, hhere, hrest, rfl⟩ := cons_eq_some.mp h
    rw [List.filterMap_append, List.flatMap_cons]
    exact (hk a (List.mem_cons_self ..) here hhere).append
      (ih hrest fun b hb => hk b (List.mem_cons_of_mem _ hb))

theorem eq_some_nil : gather f l = some [] ↔ ∀ a ∈ l, f a = some [] := by
  induction l with
  | nil => simp [gather]
  | cons a l ih =>
    rw [cons_eq_some, List.forall_mem_cons, ← ih]
    constructor
    · rintro ⟨here, rest, hhere, hrest, he⟩
      obtain ⟨rfl, rfl⟩ := List.append_eq_nil_iff.mp he.symm
      exact ⟨hhere, hrest⟩
    · rintro ⟨hhere, hrest⟩
      exact ⟨[], [], hhere, hrest, rfl⟩

end Gather
