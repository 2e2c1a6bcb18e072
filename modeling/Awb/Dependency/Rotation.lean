import Awb.Dependency.Registers
import Awb.Lib.Wraparound

/-! The rotation of registers permutes the slots of the producers, unless the 32-bit sum of a
register and the rotation base wraps where the number of rotating registers sees it. -/

namespace Awb.Dependency.DepTable
open Wraparound
variable {κ : Type} {t : DepTable κ} {rrb virtualNum : ℕ}

theorem startOfRotation_add (t : DepTable κ) :
    t.startOfRotation + t.numRotatingRegs = t.numDependencies := Nat.sub_add_cancel t.rotates

theorem getRotatedRegNum_static (rrb : ℕ) (h : virtualNum < t.startOfRotation) :
    t.getRotatedRegNum virtualNum rrb = some virtualNum := by
  have hlt : virtualNum < t.numDependencies := Nat.lt_of_lt_of_le h (Nat.sub_le ..)
  rw [getRotatedRegNum, if_pos hlt, if_pos h]

/-- A rotating register is one of a block that is reduced twice. -/
theorem getRotatedRegNum_rotating (rrb : ℕ) {i : ℕ} (h : i < t.numRotatingRegs) :
    t.getRotatedRegNum (t.startOfRotation + i) rrb =
      some (t.startOfRotation + place (2 ^ 32) t.numRotatingRegs rrb i) := by
  have hlt : t.startOfRotation + i < t.numDependencies := by
    rw [← startOfRotation_add]
    exact Nat.add_lt_add_left h _
  have hge : ¬ t.startOfRotation + i < t.startOfRotation := Nat.not_lt.mpr (Nat.le_add_right ..)
  rw [getRotatedRegNum, if_pos hlt, if_neg hge, if_pos (Nat.zero_lt_of_lt h),
    Nat.add_sub_cancel_left, Nat.add_comm _ t.startOfRotation, place]

/-- A register of the table is below the rotation or one of the rotating ones. -/
theorem static_or_rotating (h : virtualNum < t.numDependencies) :
    virtualNum < t.startOfRotation ∨
      ∃ i < t.numRotatingRegs, virtualNum = t.startOfRotation + i := by
  rcases Nat.lt_or_ge virtualNum t.startOfRotation with hstatic | hrotating
  · exact Or.inl hstatic
  · obtain ⟨i, rfl⟩ := Nat.exists_eq_add_of_le hrotating
    rw [← startOfRotation_add] at h
    exact Or.inr ⟨i, Nat.lt_of_add_lt_add_left h, rfl⟩

/-- Every register has a slot of its own: a register below the rotation keeps its number, and the
rotating registers change places with one another. -/
def Permutes (t : DepTable κ) (rrb : ℕ) : Prop :=
  ∃ rotated : Equiv.Perm (Fin t.numDependencies),
    (∀ v : Fin _, t.getRotatedRegNum v rrb = some (rotated v : ℕ)) ∧
    (∀ v : Fin _, (v : ℕ) < t.startOfRotation → rotated v = v) ∧
    ∀ v : Fin _, t.startOfRotation ≤ (v : ℕ) → t.startOfRotation ≤ (rotated v : ℕ)

/-- Two registers of a permutation do not share a slot. -/
theorem Permutes.eq_of_slot (h : t.Permutes rrb) {v w : ℕ} (hv : v < t.numDependencies)
    (hw : w < t.numDependencies)
    (heq : t.getRotatedRegNum v rrb = t.getRotatedRegNum w rrb) : v = w := by
  obtain ⟨rotated, hrotated, -, -⟩ := h
  have hslots : (rotated ⟨v, hv⟩ : ℕ) = rotated ⟨w, hw⟩ := by
    apply Option.some.inj
    rw [← hrotated, ← hrotated]
    exact heq
  exact Fin.mk.inj (rotated.injective (Fin.ext hslots))

/-- The slots are a permutation as soon as no two registers share one. -/
theorem permutes_of_injective (hinj : ∀ v < t.numDependencies, ∀ w < t.numDependencies,
    t.getRotatedRegNum v rrb = t.getRotatedRegNum w rrb → v = w) : t.Permutes rrb := by
  have hsome (v : Fin t.numDependencies) : (t.getRotatedRegNum v rrb).isSome :=
    t.getRotatedRegNum_isSome rrb v.isLt
  let slot (v : Fin t.numDependencies) : Fin t.numDependencies :=
    ⟨(t.getRotatedRegNum v rrb).get (hsome v), t.getRotatedRegNum_lt (Option.some_get _).symm⟩
  have hslot (v : Fin t.numDependencies) : t.getRotatedRegNum v rrb = some (slot v : ℕ) :=
    (Option.some_get _).symm
  have hslotInj : Function.Injective slot := by
    intro v w h
    apply Fin.ext
    apply hinj v v.isLt w w.isLt
    rw [hslot, hslot, h]
  refine ⟨Equiv.ofBijective slot (Finite.injective_iff_bijective.mp hslotInj), hslot, ?_, ?_⟩
  · intro v hv
    apply Fin.ext
    exact Option.some.inj ((hslot v).symm.trans (getRotatedRegNum_static rrb hv))
  · intro v hv
    obtain hstatic | ⟨i, hi, heq⟩ := static_or_rotating v.isLt
    · exact absurd hstatic (Nat.not_lt.mpr hv)
    · have hplace := getRotatedRegNum_rotating rrb hi
      rw [← heq, hslot] at hplace
      show t.startOfRotation ≤ (slot v : ℕ)
      rw [Option.some.inj hplace]
      exact Nat.le_add_right ..

/-- The rotation permutes the registers exactly if the sum stays below 2^32 for all of them, or
2^32 is a multiple of their number. -/
theorem permutes_iff (t : DepTable κ) (rrb : UInt32) :
    t.Permutes rrb.toNat ↔
      rrb.toNat + t.numRotatingRegs ≤ 2 ^ 32 ∨ t.numRotatingRegs ∣ 2 ^ 32 := by
  rw [← place_injective_iff rrb.toNat_lt]
  constructor
  · intro h i hi j hj heq
    have hlt {k : ℕ} (hk : k < t.numRotatingRegs) :
        t.startOfRotation + k < t.numDependencies := by
      rw [← startOfRotation_add]
      exact Nat.add_lt_add_left hk _
    apply Nat.add_left_cancel (n := t.startOfRotation)
    apply h.eq_of_slot (hlt hi) (hlt hj)
    rw [getRotatedRegNum_rotating _ hi, getRotatedRegNum_rotating _ hj, heq]
  · intro h
    apply permutes_of_injective
    intro v hv w hw heq
    obtain hvs | ⟨i, hi, rfl⟩ := static_or_rotating hv <;>
      obtain hws | ⟨j, hj, rfl⟩ := static_or_rotating hw
    · rw [getRotatedRegNum_static _ hvs, getRotatedRegNum_static _ hws] at heq
      exact Option.some.inj heq
    · rw [getRotatedRegNum_static _ hvs, getRotatedRegNum_rotating _ hj] at heq
      exact absurd (Option.some.inj heq ▸ hvs) (Nat.not_lt.mpr (Nat.le_add_right ..))
    · rw [getRotatedRegNum_rotating _ hi, getRotatedRegNum_static _ hws] at heq
      exact absurd (Option.some.inj heq ▸ hws) (Nat.not_lt.mpr (Nat.le_add_right ..))
    · rw [getRotatedRegNum_rotating _ hi, getRotatedRegNum_rotating _ hj] at heq
      have hplaces := Nat.add_left_cancel (Option.some.inj heq)
      rw [h i hi j hj hplaces]

/-- The 96 rotating registers of a table of 128. -/
def exampleTable : DepTable Unit where
  numDependencies := 128
  numRotatingRegs := 96
  rotates := by decide
  producers _ := none

/-- With a base of -1, registers 32 and 96 are given the slot of register 95. -/
theorem not_permutes : ¬ exampleTable.Permutes (UInt32.toNat (-1)) := by
  intro h
  have hslots : exampleTable.getRotatedRegNum 32 (UInt32.toNat (-1)) =
      exampleTable.getRotatedRegNum 96 (UInt32.toNat (-1)) := by decide
  have heq : (32 : ℕ) = 96 := h.eq_of_slot (by decide) (by decide) hslots
  exact absurd heq (by decide)

end Awb.Dependency.DepTable
