import Mathlib.Tactic

/-! A block of consecutive numbers that is reduced by two moduli, one after the other: the width of
a machine integer, and then the length of the block. -/

namespace Wraparound
variable {m n base i j : ℕ}

/-- Where a number of the block ends up. -/
def place (m n base i : ℕ) : ℕ := (i + base) % m % n

theorem place_lt (m base i : ℕ) (hn : 0 < n) : place m n base i < n := Nat.mod_lt _ hn

/-- Before the wrap. -/
theorem place_of_lt (h : i + base < m) : place m n base i = (i + base) % n := by
  rw [place, Nat.mod_eq_of_lt h]

/-- Behind the wrap the block begins again at zero. -/
theorem place_wrapped (hi : i < n) (hle : m ≤ i + base) (hlt : i + base < 2 * m)
    (hbase : base < m) : place m n base i = i + base - m := by
  have hwrap : (i + base) % m = i + base - m := by
    rw [Nat.mod_eq_sub_mod hle, Nat.mod_eq_of_lt (by omega)]
  rw [place, hwrap, Nat.mod_eq_of_lt (by omega)]

theorem add_mod_cancel (hi : i < n) (hj : j < n) (h : (i + base) % n = (j + base) % n) : i = j :=
  Nat.ModEq.eq_of_lt_of_lt (Nat.ModEq.add_right_cancel' base h) hi hj

/-- Nothing wraps, or the wrap is not seen by the second modulus. -/
theorem place_injective (h : base + n ≤ m ∨ n ∣ m) (hi : i < n) (hj : j < n)
    (heq : place m n base i = place m n base j) : i = j := by
  refine @add_mod_cancel n base i j hi hj ?_
  rcases h with hfits | hdvd
  · rwa [place_of_lt (by omega), place_of_lt (by omega)] at heq
  · rwa [place, place, Nat.mod_mod_of_dvd _ hdvd, Nat.mod_mod_of_dvd _ hdvd] at heq

/-- Otherwise the remainder of the two moduli moves a number onto another one. -/
theorem exists_collision (hbase : base < m) (hwraps : m < base + n) (hdvd : ¬ n ∣ m) :
    ∃ i < n, ∃ j < n, i ≠ j ∧ place m n base i = place m n base j := by
  have hn : 0 < n := by omega
  have hr : m % n ≠ 0 := fun h => hdvd (Nat.dvd_of_mod_eq_zero h)
  have hrlt : m % n < n := Nat.mod_lt _ hn
  have hdiv : n * (m / n) + m % n = m := Nat.div_add_mod m n
  -- `m - base` is where the block wraps, and it is compared with the remainder
  rcases Nat.lt_or_ge (m % n) (m - base) with hshort | hlong
  · refine ⟨m - base - m % n, by omega, m - base, by omega, by omega, ?_⟩
    have hfirst : m - base - m % n + base = n * (m / n) := by omega
    rw [place_of_lt (by omega), hfirst, Nat.mul_mod_right, place]
    have hsecond : m - base + base = m := by omega
    rw [hsecond, Nat.mod_self, Nat.zero_mod]
  · refine ⟨0, hn, m % n, hrlt, hr.symm, ?_⟩
    have hbaseEq : base = m % n - (m - base) + n * (m / n) := by omega
    have hmod : (0 + base) % n = m % n - (m - base) := by
      rw [Nat.zero_add, hbaseEq, Nat.add_mul_mod_self_left, Nat.mod_eq_of_lt (by omega)]
      omega
    have hle : m % n ≤ m := Nat.mod_le ..
    rw [place_of_lt (by omega), hmod, place_wrapped hrlt (by omega) (by omega) hbase]
    omega

/-- The numbers of the block stay apart exactly if nothing wraps or the wrap is not seen. -/
theorem place_injective_iff (hbase : base < m) :
    (∀ i < n, ∀ j < n, place m n base i = place m n base j → i = j) ↔
      base + n ≤ m ∨ n ∣ m := by
  constructor
  · intro h
    by_contra hneither
    obtain ⟨hwraps, hdvd⟩ := not_or.mp hneither
    obtain ⟨i, hi, j, hj, hne, heq⟩ := exists_collision hbase (Nat.lt_of_not_le hwraps) hdvd
    exact hne (h i hi j hj heq)
  · intro h i hi j hj heq
    exact place_injective h hi hj heq

end Wraparound
