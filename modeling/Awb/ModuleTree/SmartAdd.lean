import Awb.ModuleTree.Links
import Mathlib.Logic.Relation

/-! `smart_add_submodule` with the values of parameters: the new module gets those of the module
that it replaces, and takes over its submodules. -/

namespace Awb.ModuleTree
variable {μ ω π : Type}

/-- The parameters of modules and of models. Those of a model are copies of parameters of its
modules and submodels, and have links to them. -/
structure Parameters (μ ω π : Type) where
  ofModule : μ → List π
  ofModel : ω → List π
  name : π → String
  originalParameter : π → Option π
  same_name : ∀ p q, originalParameter p = some q → name q = name p

namespace Parameters
variable (ps : Parameters μ ω π)

def parameters : μ ⊕ ω → List π
  | .inl mod => ps.ofModule mod
  | .inr model => ps.ofModel model

/-- The parameter that `setparameter` and `getparameter` find for a name. -/
def find (child : μ ⊕ ω) (pname : String) : Option π :=
  (ps.parameters child).find? fun p => ps.name p = pname

variable [DecidableEq π]

/-- The loop of `Asim::Model::setparameter` along the links, with fuel. -/
def setOriginals (pvalue : String) : ℕ → (π → String) → Option π → Option (π → String)
  | _, values, none => some values
  | 0, _, some _ => none
  | fuel + 1, values, some p =>
    setOriginals pvalue fuel (Function.update values p pvalue) (ps.originalParameter p)

/-- `setparameter` of a module or of a model. -/
def setparameter (fuel : ℕ) (values : π → String) (child : μ ⊕ ω) (pname pvalue : String) :
    Option (π → String) :=
  match ps.find child pname, child with
  | none, _ => some values
  | some p, .inl _ => some (Function.update values p pvalue)
  | some p, .inr _ =>
    ps.setOriginals pvalue fuel (Function.update values p pvalue) (ps.originalParameter p)

/-- The loop over the old parameters. -/
def keepValues (fuel : ℕ) (child : μ ⊕ ω) (values : π → String) (old : List π) :
    Option (π → String) :=
  old.foldlM (fun values p => ps.setparameter fuel values child (ps.name p) (values p)) values

end Parameters

namespace Trees
variable [DecidableEq μ] [DecidableEq ω] [DecidableEq π] (lib : Modules μ)
  (ps : Parameters μ ω π) (s : Trees μ ω)

/-- The parameters of the old child; those of a submodel are the model's. -/
def oldParameters (self : ω) (old : μ) : Option (List π) :=
  if s.isroot old && s.owner old ≠ some self then (s.owner old).map ps.ofModel
  else some (ps.ofModule old)

def keepParameters (fuel : ℕ) (values : π → String) (self : ω) (child : μ ⊕ ω) (old : Option μ) :
    Option (π → String) :=
  match old with
  | none => some values
  | some old => (s.oldParameters ps self old).bind (ps.keepValues fuel child values)

/-- `smart_add_submodule`: the trees and the values after it, or none of them where it returns
`undef`; `none` where it dies or does not end. -/
def smartAdd (fuel : ℕ) (values : π → String) (self : ω) (child : μ ⊕ ω) :
    Option (Option (Trees μ ω × (π → String))) :=
  if s.childProvides lib child = s.provides self then
    match child with
    | .inl mod => (s.keepParameters ps fuel values self child (s.system self)).map fun values =>
      some (s.replaceChild lib self none (s.system self) mod, values)
    | .inr _ => some none
  else (s.findPlace lib fuel self (s.childProvides lib child)).bind fun
    | none => some none
    | some (parent, old) => (s.keepParameters ps fuel values self child old).bind fun values =>
      match child with
      | .inl mod => some (some (s.replaceChild lib self (some parent) old mod, values))
      | .inr model => (s.system model).map fun root =>
        some (s.modelAddSubmodule lib self (some parent) root, values)

/-- The trees do not depend on the values. -/
theorem smartAdd_trees {lib : Modules μ} {ps : Parameters μ ω π} {s s' : Trees μ ω} {fuel : ℕ}
    {values values' : π → String} {self : ω} {child : μ ⊕ ω}
    (h : s.smartAdd lib ps fuel values self child = some (some (s', values'))) :
    s.smartAddSubmodule lib fuel self child = some s' := by
  unfold smartAdd at h
  unfold smartAddSubmodule
  split_ifs at h ⊢ with hroot
  · cases child with
    | inl mod =>
      obtain ⟨values, -, heq⟩ := Option.map_eq_some_iff.mp h
      obtain ⟨rfl, -⟩ := Prod.mk.inj (Option.some.inj heq)
      rfl
    | inr model => cases Option.some.inj h
  · obtain ⟨place, hplace, h⟩ := Option.bind_eq_some_iff.mp h
    rw [hplace]
    cases place with
    | none => cases Option.some.inj h
    | some place =>
      obtain ⟨values, -, h⟩ := Option.bind_eq_some_iff.mp h
      cases child with
      | inl mod =>
        obtain ⟨rfl, -⟩ := Prod.mk.inj (Option.some.inj (Option.some.inj h))
        rfl
      | inr model =>
        obtain ⟨root, hroot, heq⟩ := Option.map_eq_some_iff.mp h
        obtain ⟨rfl, -⟩ := Prod.mk.inj (Option.some.inj heq)
        exact congrArg (Option.map _) hroot

end Trees

end Awb.ModuleTree
