import Mathlib.Tactic

/-! The trees of modules of `Asim::Module` and `Asim::Model`, and the operations that edit them.
Modules and models are references: `μ` and `ω` are their types. -/

namespace Awb.ModuleTree
variable {μ ω : Type}

/-- The types that modules provide and require. -/
structure Modules (μ : Type) where
  provides : μ → String
  requires : μ → List String

/-- The links between modules, and the roots of models. -/
structure Trees (μ ω : Type) where
  parent : μ → Option μ
  submodules : μ → List (Option μ)
  isroot : μ → Bool
  owner : μ → Option ω
  system : ω → Option μ
  provides : ω → String

/-- Assignment to an element of an array, which grows up to it. -/
def setElem (l : List (Option μ)) (i : ℕ) (v : Option μ) : List (Option μ) :=
  if i < l.length then l.set i v else l ++ List.replicate (i - l.length) none ++ [v]

/-- The first module that is found under some submodules; `none` where a search does not end. -/
def firstFound (find : μ → Option (Option μ)) : List (Option μ) → Option (Option μ)
  | [] => some none
  | none :: submodules => firstFound find submodules
  | some submodule :: submodules => (find submodule).bind fun
    | some found => some (some found)
    | none => firstFound find submodules

namespace Trees
variable (lib : Modules μ) (s : Trees μ ω)

/-- `find_module_requiring` of a module, with fuel for its recursion. -/
def findModuleRequiring : ℕ → String → μ → Option (Option μ)
  | 0, _, _ => none
  | n + 1, modtype, self =>
    if (lib.requires self).contains modtype then some (some self)
    else firstFound (fun submodule =>
      if s.isroot submodule then some none else findModuleRequiring n modtype submodule)
      (s.submodules self)

/-- `find_module_providing` of a module. -/
def findModuleProviding : ℕ → Bool → String → μ → Option (Option μ)
  | 0, _, _, _ => none
  | n + 1, stopAtSubmodel, modtype, self =>
    if lib.provides self = modtype then some (some self)
    else if stopAtSubmodel && s.isroot self then some none
    else firstFound (findModuleProviding n true modtype) (s.submodules self)

/-- The index of the type that a module provides among those that another one requires. -/
def index (self mod : μ) : Option ℕ := (lib.requires self).idxOf? (lib.provides mod)

variable [DecidableEq μ]

/-- `parent` with a value, which is ignored if it is undefined. -/
def setParent (self : μ) (value : Option μ) : Trees μ ω :=
  match value with
  | some _ => { s with parent := Function.update s.parent self value }
  | none => s

/-- The loop over the required types: the first one that fits gets a new submodule. -/
def setSubmodule (self mod : μ) (value : Option μ) : Trees μ ω :=
  match index lib self mod with
  | some i =>
    { s with submodules := Function.update s.submodules self (setElem (s.submodules self) i value) }
  | none => s

/-- `Asim::Module::add_submodule`. -/
def addSubmodule (self mod : μ) : Trees μ ω :=
  (s.setSubmodule lib self mod (some mod)).setParent mod (some self)

/-- `Asim::Module::remove_submodule`. -/
def removeSubmodule (self mod : μ) : Trees μ ω :=
  (s.setSubmodule lib self mod none).setParent mod none

variable [DecidableEq ω]

/-- `modelroot` with a value. -/
def setModelroot (self : ω) (value : μ) : Trees μ ω :=
  let isroot := match s.system self with
    | some old => Function.update s.isroot old false
    | none => s.isroot
  { s with
    isroot := Function.update isroot value true
    owner := Function.update s.owner value (some self)
    system := Function.update s.system self (some value)
    provides := Function.update s.provides self (lib.provides value) }

/-- `Asim::Model::add_submodule`; without a parent the child becomes the root. -/
def modelAddSubmodule (self : ω) (parent : Option μ) (child : μ) : Trees μ ω :=
  match parent with
  | none => s.setModelroot lib self child
  | some parent => s.addSubmodule lib parent child

/-- `Asim::Model::remove_submodule`. -/
def modelRemoveSubmodule (self : ω) (parent : Option μ) (child : μ) : Trees μ ω :=
  match parent with
  | none => { s with system := Function.update s.system self none }
  | some parent => s.removeSubmodule lib parent child

/-- What a new child provides: a module, or a model that becomes a submodel. -/
def childProvides : μ ⊕ ω → String
  | .inl mod => lib.provides mod
  | .inr model => s.provides model

/-- The module that requires a type, and the one that provides it so far. -/
def findPlace (fuel : ℕ) (self : ω) (provides : String) : Option (Option (μ × Option μ)) :=
  match s.system self with
  | none => some none
  | some root => (s.findModuleRequiring lib fuel provides root).bind fun
    | none => some none
    | some parent => (s.findModuleProviding lib fuel false provides parent).map fun old =>
      some (parent, old)

/-- The submodules of the old child that the new one takes over. -/
def inherited (parent old : Option μ) : List μ :=
  match old with
  | none => []
  | some old =>
    if s.isroot old && parent.isSome then [] else (s.submodules old).filterMap id

/-- The end of `smart_add_submodule` for a module. -/
def replaceChild (self : ω) (parent old : Option μ) (child : μ) : Trees μ ω :=
  ((s.inherited parent old).foldl (fun s sub => s.addSubmodule lib child sub) s).modelAddSubmodule
    lib self parent child

/-- `smart_add_submodule`: `none` where it dies or does not end. The values of parameters, which
are kept from the old child, are left out. -/
def smartAddSubmodule (fuel : ℕ) (self : ω) (child : μ ⊕ ω) : Option (Trees μ ω) :=
  if s.childProvides lib child = s.provides self then
    match child with
    | .inl mod => some (s.replaceChild lib self none (s.system self) mod)
    | .inr _ => some s
  else (s.findPlace lib fuel self (s.childProvides lib child)).bind fun
    | none => some s
    | some (parent, old) => match child with
      | .inl mod => some (s.replaceChild lib self (some parent) old mod)
      | .inr model =>
        (s.system model).map fun root => s.modelAddSubmodule lib self (some parent) root

end Trees

/-- The operations that edit the trees, of modules and of models. -/
inductive Op (μ ω : Type)
  | moduleAdd (self mod : μ)
  | moduleRemove (self mod : μ)
  | add (self : ω) (parent : Option μ) (child : μ)
  | remove (self : ω) (parent : Option μ) (child : μ)
  | smartAdd (self : ω) (child : μ ⊕ ω)
  | modelroot (self : ω) (value : μ)

/-- An operation that ends, with fuel for the searches of `smart_add_submodule`. -/
def Op.apply [DecidableEq μ] [DecidableEq ω] (lib : Modules μ) (fuel : ℕ) (s : Trees μ ω) :
    Op μ ω → Option (Trees μ ω)
  | moduleAdd self mod => some (s.addSubmodule lib self mod)
  | moduleRemove self mod => some (s.removeSubmodule lib self mod)
  | add self parent child => some (s.modelAddSubmodule lib self parent child)
  | remove self parent child => some (s.modelRemoveSubmodule lib self parent child)
  | smartAdd self child => s.smartAddSubmodule lib fuel self child
  | modelroot self value => some (s.setModelroot lib self value)

def EditStep [DecidableEq μ] [DecidableEq ω] (lib : Modules μ) (s : Trees μ ω) (op : Op μ ω)
    (s' : Trees μ ω) : Prop :=
  ∃ fuel, op.apply lib fuel s = some s'

end Awb.ModuleTree
