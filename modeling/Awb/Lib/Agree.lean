import Awb.Lib.Gather

/-! Two fallible computations agree if they yield the same whenever both yield something. -/

def Agree {α : Type*} (x y : Option α) : Prop := ∀ a ∈ x, ∀ b ∈ y, a = b

namespace Agree
universe u
variable {α β : Type u} {x y : Option α} {f g : α → Option β}

theorem refl (x : Option α) : Agree x x := fun _ ha _ hb => Option.mem_unique ha hb

theorem of_subsingleton [Subsingleton α] (x y : Option α) : Agree x y :=
  fun _ _ _ _ => Subsingleton.elim _ _

theorem bind (h : Agree x y) (hfg : ∀ a, Agree (f a) (g a)) : Agree (x >>= f) (y >>= g) := by
  intro c hc d hd
  obtain ⟨a, ha, hfa⟩ := Option.bind_eq_some_iff.mp hc
  obtain ⟨b, hb, hgb⟩ := Option.bind_eq_some_iff.mp hd
  obtain rfl := h a ha b hb
  exact hfg a c hfa d hgb

theorem ite {p : Prop} [Decidable p] {x' y' : Option α} (h : Agree x y) (h' : Agree x' y') :
    Agree (if p then x else x') (if p then y else y') := by
  split <;> assumption

theorem gather_congr {γ : Type*} {f g : γ → Option (List β)} {l : List γ} (h : ∀ a ∈ l, Agree (f a) (g a)) :
    Agree (gather f l) (gather g l) := by
  induction l with
  | nil => exact refl _
  | cons a l ih =>
    refine bind (h a (List.mem_cons_self ..)) fun here => ?_
    exact bind (ih fun b hb => h b (List.mem_cons_of_mem _ hb)) fun rest => refl _

end Agree
