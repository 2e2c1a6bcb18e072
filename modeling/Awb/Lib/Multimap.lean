import Awb.Lib.StableInsert
import Mathlib.Data.List.Sort
import Mathlib.Tactic

/-! A multimap with its entries in the order of their keys, and of their insertion where these are
equal. An iterator is a position among the entries; the last position is the end. -/

structure Multimap (κ α : Type*) [LinearOrder κ] where
  entries : List (κ × α)
  sorted : entries.Pairwise fun a b => a.1 ≤ b.1

namespace Multimap
variable {κ α : Type*} [LinearOrder κ] (m : Multimap κ α) {k k' : κ} {a : α}

def empty : Multimap κ α := ⟨[], .nil⟩

/-- The entries of a key, in the order of their insertion. -/
def values (k : κ) : List α := (m.entries.filter (·.1 = k)).map (·.2)

/-- The positions of the first entry whose key is not less, and of the first whose key is
greater. -/
def equalRange (k : κ) : ℕ × ℕ :=
  (m.entries.countP (·.1 < k), m.entries.countP (·.1 ≤ k))

/-- The next position. There is none behind the end. -/
def next (position : ℕ) : Option ℕ :=
  if position < m.entries.length then some (position + 1) else none

/-- What stands at a position. -/
def deref (position : ℕ) : Option α := m.entries[position]?.map (·.2)

/-- What stands from one position up to another one. -/
def between (first second : ℕ) : List α :=
  ((m.entries.drop first).take (second - first)).map (·.2)

section Sorted
variable {l : List (κ × α)}

/-- The entries are those with smaller keys, those of the key and those with greater keys. -/
theorem eq_append_of_sorted (h : l.Pairwise fun a b => a.1 ≤ b.1) (k : κ) :
    l = l.filter (·.1 < k) ++ (l.filter (·.1 = k) ++ l.filter (k < ·.1)) := by
  induction l with
  | nil => rfl
  | cons e l ih =>
    obtain ⟨hle, hl⟩ := List.pairwise_cons.mp h
    have hrest := ih hl
    rcases lt_trichotomy e.1 k with hlt | heq | hgt
    · rw [List.filter_cons_of_pos (by simpa using hlt),
        List.filter_cons_of_neg (by simpa using hlt.ne),
        List.filter_cons_of_neg (by simpa using hlt.le), List.cons_append, ← hrest]
    · -- Nothing behind the entry has a smaller key.
      have hnone : l.filter (·.1 < k) = [] := List.filter_eq_nil_iff.mpr fun b hb => by
        simpa [heq] using hle b hb
      rw [hnone, List.nil_append] at hrest
      rw [List.filter_cons_of_neg (by simp [heq]), List.filter_cons_of_pos (by simpa using heq),
        List.filter_cons_of_neg (by simp [heq]), hnone, List.nil_append, List.cons_append, ← hrest]
    · have hnone : l.filter (·.1 < k) = [] := List.filter_eq_nil_iff.mpr fun b hb => by
        simpa using hgt.le.trans (hle b hb)
      have hequal : l.filter (·.1 = k) = [] := List.filter_eq_nil_iff.mpr fun b hb => by
        simpa using (hgt.trans_le (hle b hb)).ne'
      rw [hnone, hequal, List.nil_append, List.nil_append] at hrest
      rw [List.filter_cons_of_neg (by simpa using hgt.le),
        List.filter_cons_of_neg (by simpa using hgt.ne'),
        List.filter_cons_of_pos (by simpa using hgt), hnone, hequal, List.nil_append,
        List.nil_append, ← hrest]

theorem countP_le_eq (l : List (κ × α)) (k : κ) :
    l.countP (·.1 ≤ k) = l.countP (·.1 < k) + (l.filter (·.1 = k)).length := by
  induction l with
  | nil => rfl
  | cons e l ih =>
    rw [List.countP_cons, List.countP_cons, ih]
    rcases lt_trichotomy e.1 k with hlt | heq | hgt
    · rw [List.filter_cons_of_neg (by simpa using hlt.ne)]
      simp [hlt, hlt.le]
      omega
    · rw [List.filter_cons_of_pos (by simpa using heq), List.length_cons]
      simp [heq]
      omega
    · rw [List.filter_cons_of_neg (by simpa using hgt.ne')]
      simp [hgt.le, hgt.not_ge]

end Sorted

variable {m}

theorem length_values : (m.values k).length = (m.entries.filter (·.1 = k)).length :=
  List.length_map ..

theorem equalRange_snd : (m.equalRange k).2 = (m.equalRange k).1 + (m.values k).length := by
  rw [length_values]
  exact countP_le_eq _ _

/-- Between the positions of the range are the entries of the key. -/
theorem between_equalRange : m.between (m.equalRange k).1 (m.equalRange k).2 = m.values k := by
  have hfirst : (m.equalRange k).1 = (m.entries.filter (·.1 < k)).length :=
    List.countP_eq_length_filter
  have hrange : (m.entries.drop (m.equalRange k).1).take (m.entries.filter (·.1 = k)).length =
      m.entries.filter (·.1 = k) := by
    calc (m.entries.drop (m.equalRange k).1).take (m.entries.filter (·.1 = k)).length
        = ((m.entries.filter (·.1 < k) ++ (m.entries.filter (·.1 = k) ++
            m.entries.filter (k < ·.1))).drop (m.entries.filter (·.1 < k)).length).take
              (m.entries.filter (·.1 = k)).length := by
          rw [← eq_append_of_sorted m.sorted k, hfirst]
      _ = m.entries.filter (·.1 = k) := by rw [List.drop_left, List.take_left]
  rw [equalRange_snd, between, Nat.add_sub_cancel_left, length_values, hrange, values]

/-- The range begins before the end if there is an entry of the key or of a greater one. -/
theorem equalRange_fst_lt_iff :
    (m.equalRange k).1 < m.entries.length ↔ ∃ e ∈ m.entries, k ≤ e.1 := by
  have hle : (m.equalRange k).1 ≤ m.entries.length := List.countP_le_length
  rw [lt_iff_le_and_ne, and_iff_right hle, equalRange, ne_eq, List.countP_eq_length]
  simp

/-- The first position of the range is that of the first entry of the key. -/
theorem deref_equalRange {as : List α} (h : m.values k = a :: as) :
    m.deref (m.equalRange k).1 = some a := by
  have hbetween := between_equalRange (m := m) (k := k)
  rw [h, between, equalRange_snd, Nat.add_sub_cancel_left, h] at hbetween
  have hhead := congrArg List.head? hbetween
  rw [List.head?_map, List.head?_take, List.length_cons,
    if_neg (Nat.succ_ne_zero _), List.head?_drop] at hhead
  exact hhead

variable (m)

/-- Insertion behind the entries of the same key. -/
def insert (k : κ) (a : α) : Multimap κ α where
  entries := StableInsert.insert Prod.fst (k, a) m.entries
  sorted := StableInsert.pairwise_insert m.sorted (k, a)

variable {m}

theorem perm_insert : (m.insert k a).entries.Perm ((k, a) :: m.entries) :=
  StableInsert.perm_insert Prod.fst (k, a) m.entries

theorem values_insert_self : (m.insert k a).values k = m.values k ++ [a] := by
  rw [values, insert, StableInsert.filter_insert_of_le (by simp) m.sorted, List.map_append]
  · rfl
  · intro b _ hb
    exact (of_decide_eq_true hb).le

theorem values_insert_ne (h : k' ≠ k) : (m.insert k a).values k' = m.values k' := by
  rw [values, insert, StableInsert.filter_insert_of_neg]
  · rfl
  · simpa using h.symm

end Multimap
