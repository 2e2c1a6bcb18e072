import Mathlib.Tactic

/-! A search through a list that updates the first element it accepts. The update may fail. -/

namespace List
variable {α ε : Type*} {p : α → Bool} {f : α → Except ε α}

/-- The list with its first accepted element updated, and whether there was one. -/
def updateFirst (p : α → Bool) (f : α → Except ε α) : List α → Except ε (List α × Bool)
  | [] => .ok ([], false)
  | a :: l =>
    if p a then (f a).map fun b => (b :: l, true)
    else (updateFirst p f l).map fun r => (a :: r.1, r.2)

theorem updateFirst_of_none {l : List α} (h : ∀ a ∈ l, p a = false) :
    l.updateFirst p f = .ok (l, false) := by
  induction l with
  | nil => rfl
  | cons a l ih =>
    have ha : p a = false := h a mem_cons_self
    have hl : l.updateFirst p f = .ok (l, false) := ih fun b hb => h b (mem_cons_of_mem a hb)
    simp only [updateFirst, ha, hl, Bool.false_eq_true, if_false, Except.map]

theorem updateFirst_of_first {l : List α} {i : Nat} {a : α} (hi : l[i]? = some a)
    (ha : p a = true) (h : ∀ j b, j < i → l[j]? = some b → p b = false) :
    l.updateFirst p f = (f a).map fun b => (l.set i b, true) := by
  induction l generalizing i with
  | nil => simp at hi
  | cons c l ih =>
    cases i with
    | zero =>
      obtain rfl : c = a := by simpa using hi
      simp only [updateFirst, ha, if_true, set_cons_zero]
    | succ i =>
      have hc : p c = false := h 0 c (Nat.succ_pos i) rfl
      have hl : l.updateFirst p f = (f a).map fun b => (l.set i b, true) := by
        apply ih (by simpa using hi)
        intro j b hj hb
        exact h (j + 1) b (Nat.succ_lt_succ hj) (by simpa using hb)
      simp only [updateFirst, hc, hl, Bool.false_eq_true, if_false, set_cons_succ]
      cases f a <;> rfl

/-- Either nothing is accepted, or there is a first element that is. -/
theorem updateFirst_cases (p : α → Bool) (f : α → Except ε α) (l : List α) :
    ((∀ a ∈ l, p a = false) ∧ l.updateFirst p f = .ok (l, false)) ∨
    ∃ (i : Nat) (a : α), l[i]? = some a ∧ p a = true ∧ (∀ j b, j < i → l[j]? = some b → p b = false) ∧
      l.updateFirst p f = (f a).map fun b => (l.set i b, true) := by
  by_cases hnone : ∀ a ∈ l, p a = false
  · exact .inl ⟨hnone, updateFirst_of_none hnone⟩
  · right
    have hex : ∃ i : Nat, ∃ a, l[i]? = some a ∧ p a = true := by
      push Not at hnone
      obtain ⟨a, ha, hp⟩ := hnone
      obtain ⟨i, hi⟩ := mem_iff_getElem?.mp ha
      exact ⟨i, a, hi, by simpa using hp⟩
    classical
    obtain ⟨a, hi, ha⟩ := Nat.find_spec hex
    have hfirst : ∀ j b, j < Nat.find hex → l[j]? = some b → p b = false := by
      intro j b hj hb
      by_contra hp
      exact Nat.find_min hex hj ⟨b, hb, by simpa using hp⟩
    exact ⟨Nat.find hex, a, hi, ha, hfirst, updateFirst_of_first hi ha hfirst⟩

end List
