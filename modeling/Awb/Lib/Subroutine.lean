import Mathlib.Tactic

/-! Functions of an imperative program that may return early, over a global state, and the rules by
which they keep an invariant of the state. -/

/-- The body of a function that returns a `ρ`, up to a point where it has an `α`. -/
abbrev Subroutine (σ ρ α : Type) := ExceptT ρ (StateM σ) α

namespace Subroutine
variable {σ ρ ρ' α β : Type} {inv : σ → Prop}

/-- `return`, from anywhere in the body. -/
def leave (result : ρ) : Subroutine σ ρ α := throw result

/-- The call of a function from the body of another one. -/
def call (body : Subroutine σ ρ ρ) : Subroutine σ ρ' ρ := fun s =>
  match body s with
  | (.ok result, t) => (.ok result, t)
  | (.error result, t) => (.ok result, t)

/-- The call of a function from outside. -/
def start (body : Subroutine σ ρ ρ) (s : σ) : σ := (body s).2

/-- What holds before a body holds after it, wherever it ends. -/
def Keeps (inv : σ → Prop) (body : Subroutine σ ρ α) : Prop := ∀ s, inv s → inv (body s).2

theorem Keeps.apply {body : Subroutine σ ρ ρ} (h : Keeps inv body) {s : σ} (hs : inv s) :
    inv (start body s) := h s hs

theorem keeps_pure (a : α) : Keeps inv (pure a : Subroutine σ ρ α) := fun _ h => h

theorem keeps_leave (result : ρ) : Keeps inv (leave result : Subroutine σ ρ α) := fun _ h => h

theorem keeps_modify {f : σ → σ} (h : ∀ s, inv s → inv (f s)) :
    Keeps inv (modify f : Subroutine σ ρ Unit) := h

theorem keeps_bind {body : Subroutine σ ρ α} {next : α → Subroutine σ ρ β} (h : Keeps inv body)
    (hnext : ∀ a, Keeps inv (next a)) : Keeps inv (body >>= next) := by
  intro s hs
  have hbody := h s hs
  have hrun : (body >>= next) s = match body s with
      | (.ok a, t) => next a t
      | (.error result, t) => (.error result, t) := by
    change (ExceptT.bindCont next · : Except ρ α → StateM σ _) (body s).1 (body s).2 = _
    cases body s with
    | mk result t =>
      cases result with
      | ok a => rfl
      | error result => rfl
  rw [hrun]
  cases hb : body s with
  | mk result t =>
    rw [hb] at hbody
    cases result with
    | ok a => exact hnext a t hbody
    | error result => exact hbody

theorem keeps_ite {c : Prop} [Decidable c] {body body' : Subroutine σ ρ α}
    (h : c → Keeps inv body) (h' : ¬ c → Keeps inv body') :
    Keeps inv (if c then body else body') := by
  split_ifs with hc
  · exact h hc
  · exact h' hc

theorem keeps_call {body : Subroutine σ ρ ρ} (h : Keeps inv body) :
    Keeps inv (call body : Subroutine σ ρ' ρ) := by
  intro s hs
  have hbody := h s hs
  unfold call
  cases hb : body s with
  | mk result t =>
    rw [hb] at hbody
    cases result with
    | ok a => exact hbody
    | error a => exact hbody

/-- A loop keeps what each iteration keeps. -/
theorem keeps_forM {l : List α} {body : α → Subroutine σ ρ PUnit}
    (h : ∀ a ∈ l, Keeps inv (body a)) : Keeps inv (l.forM body) := by
  induction l with
  | nil => exact keeps_pure _
  | cons a l ih =>
    obtain ⟨hfirst, hrest⟩ := List.forall_mem_cons.mp h
    exact keeps_bind hfirst fun _ => ih hrest

end Subroutine
