import Mathlib.Tactic

/-! Bit masks that clear the lower bits of a word, and the pages of a power of 2 that they cut the
words into. -/

/-- All bits from `k` on are set. -/
def ClearsBelow {w : ℕ} (k : ℕ) (mask : BitVec w) : Prop :=
  ∀ i, i < w → mask.getLsbD i = decide (k ≤ i)

namespace ClearsBelow
variable {w k : ℕ} {mask : BitVec w}

/-- A power of 2, less one and inverted, is such a mask. -/
theorem not_sub_one {p : BitVec w} (hp : p.toNat = 2 ^ k) : ClearsBelow k (~~~(p - 1)) := by
  intro i hi
  have hone : (1 : BitVec w).toNat = 1 :=
    (BitVec.toNat_ofNat ..).trans (Nat.mod_eq_of_lt (Nat.one_lt_two_pow (by omega)))
  have hle : 1 ≤ p := by
    rw [BitVec.le_def, hone, hp]
    exact Nat.two_pow_pos k
  have hlow : (p - 1).toNat = 2 ^ k - 1 := by
    rw [BitVec.toNat_sub_of_le hle, hp, hone]
  rw [BitVec.getLsbD_not, BitVec.getLsbD, hlow, Nat.testBit_two_pow_sub_one]
  simp only [hi, decide_true, Bool.true_and]
  rw [← decide_not]
  exact decide_eq_decide.mpr not_lt

theorem signExtend (h : ClearsBelow k mask) (hk : k < w) (v : ℕ) :
    ClearsBelow k (mask.signExtend v) := by
  intro i hi
  rw [BitVec.getLsbD_signExtend]
  split_ifs with hlow
  · simp [hi, h i hlow]
  · have hlast : w - 1 < w := by omega
    rw [BitVec.msb_eq_getLsbD_last, h _ hlast]
    simp only [hi, decide_true, Bool.true_and]
    rw [decide_eq_true (by omega), decide_eq_true (by omega)]

/-- The greatest multiple of the power of 2 that is not above the word. -/
theorem toNat_and (h : ClearsBelow k mask) (a : BitVec w) :
    (a &&& mask).toNat = 2 ^ k * (a.toNat / 2 ^ k) := by
  apply Nat.eq_of_testBit_eq
  intro i
  rw [Nat.testBit_two_pow_mul, Nat.testBit_div_two_pow]
  by_cases hi : i < w
  · have hbit : (a &&& mask).toNat.testBit i = (a.toNat.testBit i && decide (k ≤ i)) := by
      have hand := BitVec.getLsbD_and (x := a) (y := mask) (i := i)
      rw [h i hi] at hand
      exact hand
    rw [hbit]
    by_cases hk : k ≤ i
    · simp [hk, Nat.sub_add_cancel hk]
    · simp [hk]
  · have hle : 2 ^ w ≤ 2 ^ i := Nat.pow_le_pow_right (by decide) (by omega)
    rw [Nat.testBit_lt_two_pow ((a &&& mask).isLt.trans_le hle)]
    by_cases hk : k ≤ i
    · rw [Nat.sub_add_cancel hk, Nat.testBit_lt_two_pow (a.isLt.trans_le hle), Bool.and_false]
    · simp [hk]

theorem and_eq_and_iff (h : ClearsBelow k mask) (a b : BitVec w) :
    a &&& mask = b &&& mask ↔ a.toNat / 2 ^ k = b.toNat / 2 ^ k := by
  rw [← BitVec.toNat_inj, h.toNat_and, h.toNat_and]
  exact Nat.mul_right_inj (Nat.two_pow_pos k).ne'

/-- The mask takes the lower bits away, and the shift moves the others down. -/
theorem and_eq_and_iff_shift (h : ClearsBelow k mask) (a b : BitVec w) :
    a &&& mask = b &&& mask ↔ a >>> k = b >>> k := by
  rw [h.and_eq_and_iff, ← BitVec.toNat_inj, BitVec.toNat_ushiftRight, BitVec.toNat_ushiftRight,
    Nat.shiftRight_eq_div_pow, Nat.shiftRight_eq_div_pow]

/-- What is left over lies below the power of 2. -/
theorem toNat_sub_and_lt (h : ClearsBelow k mask) (a : BitVec w) :
    (a - (a &&& mask)).toNat < 2 ^ k := by
  have hle : a &&& mask ≤ a := by
    rw [BitVec.le_def, h.toNat_and]
    exact Nat.mul_div_le _ _
  rw [BitVec.toNat_sub_of_le hle, h.toNat_and, ← Nat.mod_eq_sub]
  exact Nat.mod_lt _ (Nat.two_pow_pos k)

end ClearsBelow
