import Mathlib.Data.Nat.Count
import Mathlib.Order.Interval.Finset.Nat
import Mathlib.Tactic

/-! A list in consecutive slots of a wrapping array, in which a slot without an entry is empty: what
becomes of it when an entry is put behind the last one, and when the first one is taken out. -/

namespace Ring
variable {α : Type*} {n head k : ℕ} {slot : ℕ → Option α} {l : List α} {a : α}

/-- The slots from the head on hold the list, and all others are empty. -/
structure Holds (n head : ℕ) (slot : ℕ → Option α) (l : List α) : Prop where
  fits : l.length ≤ n
  start : head % n = head
  slots : ∀ k < n, slot ((head + k) % n) = l[k]?
  beyond : ∀ i, n ≤ i → slot i = none

theorem add_mod_injective {j : ℕ} (hj : j < n) (hk : k < n)
    (h : (head + j) % n = (head + k) % n) : j = k :=
  Nat.ModEq.eq_of_lt_of_lt (Nat.ModEq.add_left_cancel' head h) hj hk

/-- Every slot of the array is some steps behind the head. -/
theorem exists_offset {i : ℕ} (hhead : head % n = head) (hi : i < n) :
    ∃ k < n, (head + k) % n = i := by
  have hlt : head < n := by
    rw [← hhead]
    exact Nat.mod_lt _ (by omega)
  rcases Nat.lt_or_ge i head with h | h
  · refine ⟨i + n - head, by omega, ?_⟩
    have hsum : head + (i + n - head) = i + n := by omega
    rw [hsum, Nat.add_mod_right, Nat.mod_eq_of_lt hi]
  · refine ⟨i - head, by omega, ?_⟩
    have hsum : head + (i - head) = i := by omega
    rw [hsum, Nat.mod_eq_of_lt hi]

theorem holds_empty (n : ℕ) : Holds n 0 (fun _ => (none : Option α)) [] where
  fits := Nat.zero_le n
  start := Nat.zero_mod n
  slots := fun _ _ => rfl
  beyond := fun _ _ => rfl

namespace Holds

/-- The slot at the head holds the first entry. -/
theorem slot_head (h : Holds n head slot l) : slot head = l.head? := by
  rcases Nat.eq_zero_or_pos n with rfl | hn
  · have hnil : l = [] := List.eq_nil_of_length_eq_zero (Nat.le_zero.mp h.fits)
    rw [h.beyond head (Nat.zero_le head), hnil, List.head?_nil]
  · have hfirst := h.slots 0 hn
    rwa [Nat.add_zero, h.start, ← List.head?_eq_getElem?] at hfirst

/-- The slot behind the last entry is empty unless the list fills the array. -/
theorem slot_tail (h : Holds n head slot l) :
    (slot ((head + l.length) % n)).isSome ↔ l.length = n ∧ 0 < n := by
  rcases h.fits.lt_or_eq with hlt | heq
  · rw [h.slots l.length hlt, List.getElem?_eq_none le_rfl]
    exact ⟨fun hsome => (by cases hsome), fun hfull => absurd hfull.1 hlt.ne⟩
  · rw [heq, Nat.add_mod_right, h.start, h.slot_head, List.isSome_head?, ← List.length_pos_iff,
      heq]
    exact ⟨fun hpos => ⟨rfl, hpos⟩, fun hfull => hfull.2⟩

/-- An entry is put into the slot behind the last one. -/
theorem push (h : Holds n head slot l) (hroom : l.length < n) (a : α) :
    Holds n head (Function.update slot ((head + l.length) % n) (some a)) (l ++ [a]) where
  fits := by
    rw [List.length_append, List.length_singleton]
    omega
  start := h.start
  slots k hk := by
    by_cases hlast : k = l.length
    · subst hlast
      rw [Function.update_self, List.getElem?_concat_length]
    · have hother : (head + k) % n ≠ (head + l.length) % n := fun heq =>
        hlast (add_mod_injective hk hroom heq)
      rw [Function.update_of_ne hother, h.slots k hk]
      rcases Nat.lt_or_gt_of_ne hlast with hlt | hgt
      · rw [List.getElem?_append_left hlt]
      · rw [List.getElem?_eq_none (by omega), List.getElem?_eq_none]
        rw [List.length_append, List.length_singleton]
        omega
  beyond i hi := by
    have hne : i ≠ (head + l.length) % n := by
      have := Nat.mod_lt (head + l.length) (by omega : n > 0)
      omega
    rw [Function.update_of_ne hne, h.beyond i hi]

/-- The first entry is taken out, and the head is the next slot. -/
theorem pop (h : Holds n head slot (a :: l)) :
    Holds n ((head + 1) % n) (Function.update slot head none) l where
  fits := Nat.le_of_succ_le h.fits
  start := Nat.mod_mod _ n
  slots k hk := by
    have hfits : l.length + 1 ≤ n := h.fits
    have hstep : ((head + 1) % n + k) % n = (head + (k + 1)) % n := by
      rw [Nat.mod_add_mod, Nat.add_assoc, Nat.add_comm 1 k]
    rw [hstep]
    by_cases hwrap : k + 1 = n
    · rw [hwrap, Nat.add_mod_right, h.start, Function.update_self, List.getElem?_eq_none]
      omega
    · have hne : (head + (k + 1)) % n ≠ head := by
        intro heq
        have hsame : (head + (k + 1)) % n = (head + 0) % n := by rw [heq, Nat.add_zero, h.start]
        have := add_mod_injective (by omega) (by omega) hsame
        omega
      rw [Function.update_of_ne hne, h.slots (k + 1) (by omega), List.getElem?_cons_succ]
  beyond i hi := by
    by_cases heq : i = head
    · rw [heq, Function.update_self]
    · rw [Function.update_of_ne heq, h.beyond i hi]

/-- An array that holds nothing is empty throughout. -/
theorem slot_eq_none (h : Holds n head slot []) : slot = fun _ => none := by
  funext i
  rcases Nat.lt_or_ge i n with hi | hi
  · obtain ⟨k, hk, rfl⟩ := exists_offset h.start hi
    exact h.slots k hk
  · exact h.beyond i hi

/-- As many slots have an entry as the list has. -/
theorem count (h : Holds n head slot l) : n.count (fun i => (slot i).isSome) = l.length := by
  have hperiodic : Function.Periodic (fun i => (slot (i % n)).isSome = true) n := fun i => by
    simp only [Nat.add_mod_right]
  have hcount : n.count (fun i => (slot i).isSome) = n.count fun i => (slot (i % n)).isSome := by
    rw [Nat.count_eq_card_filter_range, Nat.count_eq_card_filter_range]
    congr 1
    refine Finset.filter_congr fun i hi => ?_
    rw [Nat.mod_eq_of_lt (Finset.mem_range.mp hi)]
  have hshift := Nat.filter_Ico_card_eq_of_periodic head n _ hperiodic
  rw [hcount, ← hshift]
  have himage : {i ∈ Finset.Ico head (head + n) | (slot (i % n)).isSome} =
      (Finset.range l.length).image (head + ·) := by
    ext i
    rw [Finset.mem_filter, Finset.mem_Ico, Finset.mem_image]
    constructor
    · rintro ⟨⟨hle, hlt⟩, hsome⟩
      refine ⟨i - head, ?_, by omega⟩
      have hoffset : head + (i - head) = i := by omega
      rw [← hoffset, h.slots _ (by omega), Option.isSome_iff_ne_none, Ne,
        List.getElem?_eq_none_iff, not_le] at hsome
      exact Finset.mem_range.mpr hsome
    · rintro ⟨k, hk, rfl⟩
      have hk' : k < l.length := Finset.mem_range.mp hk
      have := h.fits
      refine ⟨⟨by omega, by omega⟩, ?_⟩
      rw [h.slots k (by omega), List.getElem?_eq_getElem hk', Option.isSome_some]
  rw [himage, Finset.card_image_of_injective _ (add_right_injective head), Finset.card_range]

end Holds

end Ring
