import Mathlib.Order.Bounds.Basic
import Mathlib.Data.Nat.Init
import Mathlib.Tactic

/-! The multiples of a number above a bound: the least one, and the list of those up to a limit. -/

namespace Multiples

/-- The first multiple of `p` above `c`. -/
def next (p c : ℕ) : ℕ := (c / p + 1) * p

theorem dvd_next (p c : ℕ) : p ∣ next p c := Dvd.intro_left _ rfl

theorem lt_next {p : ℕ} (hp : 0 < p) (c : ℕ) : c < next p c :=
  Nat.lt_mul_of_div_lt (Nat.lt_succ_self _) hp

theorem next_le {p c m : ℕ} (hm : p ∣ m) (hc : c < m) : next p c ≤ m := by
  obtain ⟨k, rfl⟩ := hm
  have hk : c / p < k := Nat.div_lt_of_lt_mul hc
  calc (c / p + 1) * p ≤ k * p := Nat.mul_le_mul_right p hk
    _ = p * k := Nat.mul_comm ..

theorem isLeast_next {p : ℕ} (hp : 0 < p) (c : ℕ) : IsLeast {m | p ∣ m ∧ c < m} (next p c) :=
  ⟨⟨dvd_next p c, lt_next hp c⟩, fun _ h => next_le h.1 h.2⟩

theorem next_le_add {p : ℕ} (c : ℕ) : next p c ≤ c + p := by
  have h := Nat.div_mul_le_self c p
  rw [next, Nat.add_mul, Nat.one_mul]
  omega

/-- From a multiple the next one is a whole period away. -/
theorem next_of_dvd {p c : ℕ} (h : p ∣ c) : next p c = c + p := by
  rw [next, Nat.add_mul, Nat.div_mul_cancel h, Nat.one_mul]

/-- Counting from one further on gives the same multiple, unless that step lands on one. -/
theorem next_succ_eq_iff {p : ℕ} (hp : 0 < p) (c : ℕ) : next p (c + 1) = next p c ↔ ¬ p ∣ c + 1 := by
  constructor
  · intro h hd
    have h1 := next_le hd (Nat.lt_succ_self c)
    have h2 := lt_next hp (c + 1)
    omega
  · intro hd
    apply le_antisymm
    · refine next_le (dvd_next p c) (lt_of_le_of_ne (lt_next hp c) fun h => hd ?_)
      exact h ▸ dvd_next p c
    · exact next_le (dvd_next p (c + 1)) ((Nat.lt_succ_self c).trans (lt_next hp _))

/-- The multiples of `p` in `(lo, hi]`, in increasing order. -/
def between (p lo hi : ℕ) : List ℕ := (List.range (hi + 1)).filter fun m => p ∣ m ∧ lo < m

theorem mem_between {p lo hi m : ℕ} : m ∈ between p lo hi ↔ m ≤ hi ∧ p ∣ m ∧ lo < m := by
  simp [between]

theorem between_eq_nil {p lo hi : ℕ} (h : hi ≤ lo) : between p lo hi = [] := by
  refine List.eq_nil_iff_forall_not_mem.mpr fun m hm => ?_
  have := mem_between.mp hm
  omega

/-- A stretch without multiples adds none. -/
theorem between_eq {p lo hi hi' : ℕ} (hle : hi ≤ hi') (h : ∀ m, hi < m → m ≤ hi' → ¬ p ∣ m) :
    between p lo hi' = between p lo hi := by
  induction hi', hle using Nat.le_induction with
  | base => rfl
  | succ n hn ih =>
    rw [← ih fun m h1 h2 => h m h1 (by omega), between, List.range_succ, List.filter_append]
    simp [between, h (n + 1) (by omega) le_rfl]

theorem between_succ {p lo hi : ℕ} (hd : p ∣ hi + 1) (hlo : lo ≤ hi) :
    between p lo (hi + 1) = between p lo hi ++ [hi + 1] := by
  rw [between, List.range_succ, List.filter_append]
  simp [between, hd, Nat.lt_succ_of_le hlo]

/-- Up to the next multiple there is exactly that one to add. -/
theorem between_next {p lo c : ℕ} (hp : 0 < p) (hlo : lo ≤ c) :
    between p lo (next p c) = between p lo c ++ [next p c] := by
  obtain ⟨n, hn⟩ : ∃ n, next p c = n + 1 := ⟨next p c - 1, by have := lt_next hp c; omega⟩
  have hcn : c ≤ n := by have := lt_next hp c; omega
  rw [hn, between_succ (hn ▸ dvd_next p c) (hlo.trans hcn), between_eq hcn]
  intro m h1 h2 hd
  have := next_le hd h1
  omega

end Multiples
