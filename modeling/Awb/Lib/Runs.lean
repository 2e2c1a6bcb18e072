import Mathlib.Tactic

/-! Finite runs of a labelled transition system, with the labels they emit. A property of
states and traces that every step keeps holds after every run. -/

namespace Lts
variable {σ ℓ : Type*} {step : σ → ℓ → σ → Prop}

/-- The system goes from the first state to the last one and emits the labels, oldest first. -/
inductive Run (step : σ → ℓ → σ → Prop) (s : σ) : List ℓ → σ → Prop
  | nil : Run step s [] s
  | snoc {tr : List ℓ} {t u : σ} {l : ℓ} : Run step s tr t → step t l u → Run step s (tr ++ [l]) u

/-- The steps of a system at which a condition on the state before and the label holds. -/
def guarded (ok : σ → ℓ → Prop) (step : σ → ℓ → σ → Prop) : σ → ℓ → σ → Prop :=
  fun s l t => ok s l ∧ step s l t

theorem Run.mono {step' : σ → ℓ → σ → Prop} (h : ∀ s l t, step s l t → step' s l t)
    {s t : σ} {tr : List ℓ} (run : Run step s tr t) : Run step' s tr t := by
  induction run with
  | nil => exact .nil
  | snoc _ hstep ih => exact .snoc ih (h _ _ _ hstep)

theorem Run.of_guarded {ok : σ → ℓ → Prop} {s t : σ} {tr : List ℓ}
    (run : Run (guarded ok step) s tr t) : Run step s tr t := run.mono fun _ _ _ h => h.2

theorem Run.single {s t : σ} {l : ℓ} (h : step s l t) : Run step s [l] t := Run.snoc .nil h

theorem Run.trans {s t u : σ} {tr tr' : List ℓ} (run : Run step s tr t)
    (run' : Run step t tr' u) : Run step s (tr ++ tr') u := by
  induction run' with
  | nil => simpa using run
  | snoc _ hstep ih => simpa only [List.append_assoc] using Run.snoc ih hstep

theorem Run.cons {s t u : σ} {l : ℓ} {tr : List ℓ} (h : step s l t) (run : Run step t tr u) :
    Run step s (l :: tr) u := (Run.single h).trans run

/-- A run that a function computes. -/
theorem Run.of_foldlM {f : σ → ℓ → Option σ} (hf : ∀ s l t, f s l = some t → step s l t)
    {tr : List ℓ} {s t : σ} (h : tr.foldlM f s = some t) : Run step s tr t := by
  induction tr generalizing s with
  | nil =>
    obtain rfl : s = t := Option.some.inj h
    exact .nil
  | cons l tr ih =>
    rw [List.foldlM_cons] at h
    obtain ⟨u, hu, htr⟩ := Option.bind_eq_some_iff.mp h
    exact .cons (hf s l u hu) (ih htr)

/-- Follow inputs, each of which determines the next step. -/
def follow {ι : Type*} (next : σ → ι → Option (ℓ × σ)) (s : σ) : List ι → Option (List ℓ × σ)
  | [] => some ([], s)
  | i :: inputs => (next s i).bind fun r =>
      (follow next r.2 inputs).map fun r' => (r.1 :: r'.1, r'.2)

theorem Run.of_follow {ι : Type*} {next : σ → ι → Option (ℓ × σ)}
    (hnext : ∀ s i l t, next s i = some (l, t) → step s l t) {inputs : List ι} {s t : σ}
    {tr : List ℓ} (h : follow next s inputs = some (tr, t)) : Run step s tr t := by
  induction inputs generalizing s tr with
  | nil =>
    obtain ⟨rfl, rfl⟩ := Prod.mk.inj (Option.some.inj h)
    exact .nil
  | cons i inputs ih =>
    obtain ⟨⟨l, u⟩, hl, h⟩ := Option.bind_eq_some_iff.mp h
    obtain ⟨⟨tr', t'⟩, htr, h⟩ := Option.map_eq_some_iff.mp h
    obtain ⟨rfl, rfl⟩ := Prod.mk.inj h
    exact .cons (hnext s i l u hl) (ih htr)

/-- The invariant rule: what holds at the start and is kept by every step holds at the end. -/
theorem Run.invariant {s t : σ} {tr : List ℓ} (run : Run step s tr t)
    (inv : List ℓ → σ → Prop) (start : inv [] s)
    (keep : ∀ tr t l u, inv tr t → step t l u → inv (tr ++ [l]) u) : inv tr t := by
  induction run with
  | nil => exact start
  | snoc _ hstep ih => exact keep _ _ _ _ ih hstep

/-- A trace cut in two passes through a state between its halves. -/
theorem Run.split {s u : σ} {tr tr' : List ℓ} (run : Run step s (tr ++ tr') u) :
    ∃ t, Run step s tr t ∧ Run step t tr' u := by
  induction tr' using List.reverseRecOn generalizing u with
  | nil => exact ⟨u, by simpa using run, .nil⟩
  | append_singleton tr' l ih =>
    rw [← List.append_assoc] at run
    generalize hw : (tr ++ tr') ++ [l] = w at run
    cases run with
    | nil => simp at hw
    | @snoc w t _ l' run hstep =>
      obtain ⟨rfl, hl⟩ := List.append_inj' hw rfl
      obtain rfl : l = l' := by simpa using hl
      obtain ⟨m, hm, hm'⟩ := ih run
      exact ⟨m, hm, hm'.snoc hstep⟩

theorem Run.cons_inv {s u : σ} {l : ℓ} {tr : List ℓ} (run : Run step s (l :: tr) u) :
    ∃ t, step s l t ∧ Run step t tr u := by
  obtain ⟨t, hl, htr⟩ : ∃ t, Run step s [l] t ∧ Run step t tr u := Run.split run
  generalize hw : [l] = w at hl
  cases hl with
  | nil => simp at hw
  | @snoc w v _ l' run' hstep =>
    obtain ⟨hw', hl'⟩ := List.append_inj' ((List.nil_append [l]).trans hw) rfl
    obtain rfl : l = l' := by simpa using hl'
    subst hw'
    generalize hn : ([] : List ℓ) = n at run'
    cases run' with
    | nil => exact ⟨t, hstep, htr⟩
    | snoc => simp at hn

/-- Every label of a trace was emitted by a step between two runs. -/
theorem Run.exists_step {s u : σ} {l : ℓ} {tr : List ℓ} (run : Run step s tr u) (hl : l ∈ tr) :
    ∃ pre post t t', tr = pre ++ l :: post ∧ Run step s pre t ∧ step t l t' ∧
      Run step t' post u := by
  obtain ⟨pre, post, rfl⟩ := List.append_of_mem hl
  obtain ⟨t, hpre, run'⟩ := run.split
  obtain ⟨t', hstep, hpost⟩ := run'.cons_inv
  exact ⟨pre, post, t, t', rfl, hpre, hstep, hpost⟩

end Lts
