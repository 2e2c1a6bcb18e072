import Mathlib.Tactic

/-! Folds and sequences that can fail. -/

universe u

namespace List
variable {σ α : Type*} {f : σ → α → Option σ} {l : List α} {s s' : σ}

/-- The invariant rule: what every step of a fold keeps holds at its end. -/
theorem foldlM_invariant (h : l.foldlM f s = some s') (inv : σ → Prop) (start : inv s)
    (keep : ∀ s a s', a ∈ l → inv s → f s a = some s' → inv s') : inv s' := by
  induction l generalizing s with
  | nil => exact Option.some.inj h ▸ start
  | cons a l ih =>
    rw [foldlM_cons] at h
    obtain ⟨m, hstep, hrest⟩ := Option.bind_eq_some_iff.mp h
    exact ih hrest (keep _ _ _ (mem_cons_self ..) start hstep)
      fun s b s' hb => keep s b s' (mem_cons_of_mem _ hb)

/-- What a loop adds to a list, from what each step adds. -/
theorem mem_foldl_iff {α β : Type*} {f : List α → β → List α} (adds : β → α → Prop)
    (step : ∀ l b x, x ∈ f l b ↔ x ∈ l ∨ adds b x) {bs : List β} {l : List α} {x : α} :
    x ∈ bs.foldl f l ↔ x ∈ l ∨ ∃ b ∈ bs, adds b x := by
  induction bs generalizing l with
  | nil => simp
  | cons b bs ih => rw [foldl_cons, ih, step, exists_mem_cons_iff, or_assoc]

/-- A fold over lists strung together folds over each of them in turn. -/
theorem foldlM_flatMap {σ : Type u} {m : Type u → Type*} [Monad m] [LawfulMonad m] {α β : Type*}
    (f : σ → β → m σ) (g : α → List β) (l : List α) (s : σ) :
    (l.flatMap g).foldlM f s = l.foldlM (fun s a => (g a).foldlM f s) s := by
  induction l generalizing s with
  | nil => rfl
  | cons a l ih => simp only [flatMap_cons, foldlM_append, foldlM_cons, ih]

theorem mapM_nil_some {β : Type u} {g : α → Option β} {l' : List β}
    (h : ([] : List α).mapM g = some l') : l' = [] := (Option.some.inj h).symm

/-- A sequence that succeeds has one result for each element. -/
theorem forall₂_of_mapM {β : Type u} {g : α → Option β} {l' : List β} (h : l.mapM g = some l') :
    Forall₂ (fun a b => g a = some b) l l' := by
  induction l generalizing l' with
  | nil => exact mapM_nil_some h ▸ Forall₂.nil
  | cons a l ih =>
    rw [mapM_cons] at h
    obtain ⟨b, hb, h⟩ := Option.bind_eq_some_iff.mp h
    obtain ⟨bs, hbs, h⟩ := Option.bind_eq_some_iff.mp h
    exact Option.some.inj h ▸ Forall₂.cons hb (ih hbs)

theorem mapM_of_forall₂ {β : Type u} {g : α → Option β} {l' : List β}
    (h : Forall₂ (fun a b => g a = some b) l l') : l.mapM g = some l' := by
  induction h with
  | nil => rfl
  | cons hb _ ih => rw [mapM_cons, hb, ih]; rfl

/-- Every result has an element that it is of, at its own place. -/
theorem getElem?_of_mapM {β : Type u} {g : α → Option β} {l' : List β} {k : ℕ} {b : β}
    (h : l.mapM g = some l') (hb : l'[k]? = some b) : ∃ a, l[k]? = some a ∧ g a = some b := by
  have hall := forall₂_of_mapM h
  clear h
  induction hall generalizing k with
  | nil => simp at hb
  | cons hg _ ih =>
    cases k with
    | zero => exact ⟨_, rfl, Option.some.inj hb ▸ hg⟩
    | succ k => exact ih hb

theorem isSome_mapM_iff {β : Type u} {g : α → Option β} :
    (l.mapM g).isSome = true ↔ ∀ a ∈ l, (g a).isSome = true := by
  induction l with
  | nil => simp
  | cons a l ih =>
    rw [mapM_cons, forall_mem_cons, ← ih]
    cases g a with
    | none => simp
    | some b => cases l.mapM g <;> simp

end List

namespace Except

theorem bind_eq_ok {ε α β : Type*} {x : Except ε α} {f : α → Except ε β} {b : β} :
    x.bind f = .ok b ↔ ∃ a, x = .ok a ∧ f a = .ok b := by
  cases x with
  | error e => simp [Except.bind]
  | ok a => simp [Except.bind]

end Except
