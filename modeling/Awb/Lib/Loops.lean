import Mathlib.Tactic

/-! A `while` loop whose body reads one input in each iteration and may abort. The states at
which it starts an iteration all pass its guard, and the state it ends in does not. -/

variable {σ ι : Type*}

/-- The guard and the body of a loop; the body gives `none` where the program aborts. -/
structure WhileLoop (σ ι : Type*) where
  guard : σ → Bool
  body : σ → ι → Option σ

namespace WhileLoop

/-- The states in which iterations start, as far as the inputs reach. -/
def starts (loop : WhileLoop σ ι) : σ → List ι → List σ
  | s, [] => if loop.guard s then [s] else []
  | s, i :: is =>
    if loop.guard s then
      match loop.body s i with
      | some t => s :: loop.starts t is
      | none => [s]
    else []

/-- The state in which the loop ends: `none` where it aborts or needs more inputs. -/
def exit (loop : WhileLoop σ ι) : σ → List ι → Option σ
  | s, [] => if loop.guard s then none else some s
  | s, i :: is =>
    if loop.guard s then
      match loop.body s i with
      | some t => loop.exit t is
      | none => none
    else some s

variable {loop : WhileLoop σ ι} {inv : σ → Prop}

/-- What holds before the loop and is kept by its body holds whenever an iteration starts. -/
theorem starts_invariant
    (keep : ∀ s i t, inv s → loop.guard s = true → loop.body s i = some t → inv t)
    {is : List ι} {s t : σ} (hs : inv s) (ht : t ∈ loop.starts s is) :
    inv t ∧ loop.guard t = true := by
  induction is generalizing s with
  | nil =>
    rw [starts] at ht
    split at ht
    · rename_i hguard
      obtain rfl := List.mem_singleton.mp ht
      exact ⟨hs, hguard⟩
    · exact absurd ht List.not_mem_nil
  | cons i is ih =>
    rw [starts] at ht
    split at ht
    · rename_i hguard
      cases hbody : loop.body s i with
      | none =>
        rw [hbody] at ht
        obtain rfl := List.mem_singleton.mp ht
        exact ⟨hs, hguard⟩
      | some u =>
        rw [hbody] at ht
        rcases List.mem_cons.mp ht with rfl | ht
        · exact ⟨hs, hguard⟩
        · have hu : inv u := keep s i u hs hguard hbody
          exact ih hu ht
    · exact absurd ht List.not_mem_nil

theorem exit_invariant
    (keep : ∀ s i t, inv s → loop.guard s = true → loop.body s i = some t → inv t)
    {is : List ι} {s t : σ} (hs : inv s) (ht : loop.exit s is = some t) :
    inv t ∧ loop.guard t = false := by
  induction is generalizing s with
  | nil =>
    rw [exit] at ht
    split at ht
    · cases ht
    · rename_i hguard
      obtain rfl := Option.some.inj ht
      exact ⟨hs, Bool.eq_false_iff.mpr hguard⟩
  | cons i is ih =>
    rw [exit] at ht
    split at ht
    · rename_i hguard
      cases hbody : loop.body s i with
      | none =>
        rw [hbody] at ht
        cases ht
      | some u =>
        rw [hbody] at ht
        have hu : inv u := keep s i u hs hguard hbody
        exact ih hu ht
    · rename_i hguard
      obtain rfl := Option.some.inj ht
      exact ⟨hs, Bool.eq_false_iff.mpr hguard⟩

end WhileLoop
