import Awb.Apm.ModelParse
import Awb.Lib.Folds

/-! The tree that `Model::Parse` gives is well typed, even where it is not complete. -/

namespace Awb.Apm
open Inifile
variable {Dir : Type} (src : Sources Dir)

/-- The group of a configuration that describes the root of the tree parsed for a name: that of
the name itself, or, if it names a submodel, that of the submodel's root. -/
inductive Described : GroupMap → Text → GroupMap → Text → Prop
  | module {modelIni moduleName} :
      isModelFile (get modelIni moduleName "File".toList []) = false →
      Described modelIni moduleName modelIni moduleName
  | submodel {modelIni moduleName subIni ini name} :
      isModelFile (get modelIni moduleName "File".toList []) = true →
      src.modelIni (get modelIni moduleName "File".toList []) = some subIni →
      Described subIni (rootName subIni) ini name → Described modelIni moduleName ini name

/-- A parameter has the value of its entry in the configuration, without the quotes around a
string, or its default value if there is no entry or an empty one. -/
structure Valued (ini : GroupMap) (name : Text) (param : Param) (p : ParamInstance) : Prop where
  param_eq : p.param = param
  default_of_empty : get ini (paramGroup name) param.name [] = [] → p.value = param.defaultValue
  entry : get ini (paramGroup name) param.name [] ≠ [] → param.isString = false →
    p.value = get ini (paramGroup name) param.name []
  unquoted : get ini (paramGroup name) param.name [] ≠ [] → param.isString = true →
    get ini (paramGroup name) param.name [] = '"' :: p.value ++ ['"'] ∨
      get ini (paramGroup name) param.name [] = ['"'] ∧ p.value = []

/-- A tree of module instances for a name in a configuration: every instance has a place for each
of its required types, what is in a place provides its type and is well typed again, and the
parameters have the values of the group of the instance. -/
inductive WellTyped : GroupMap → Text → Instance → Prop
  | node {modelIni moduleName ini name} {a : Node} {subs : List (Option Instance)}
      (described : Described src modelIni moduleName ini name)
      (params : List.Forall₂ (Valued ini name) a.module.paramList a.paramInstanceList)
      (places : subs.length = a.module.requiresList.length)
      (provides : ∀ (i : ℕ) r t, a.module.requiresList[i]? = some r → subs[i]? = some (some t) →
        t.label.module.provides = r)
      (below : ∀ (i : ℕ) r t, a.module.requiresList[i]? = some r → subs[i]? = some (some t) →
        WellTyped ini (get ini (requiresGroup name) r []) t) :
      WellTyped modelIni moduleName (.node a subs)

variable {src} {modelIni : GroupMap} {moduleName : Text}

theorem WellTyped.of_submodel {ini : GroupMap} {t : Instance}
    (hfile : isModelFile (get modelIni moduleName "File".toList []) = true)
    (hini : src.modelIni (get modelIni moduleName "File".toList []) = some ini)
    (h : WellTyped src ini (rootName ini) t) : WellTyped src modelIni moduleName t := by
  cases h with
  | node described params places provides below =>
    exact .node (.submodel hfile hini described) params places provides below

/-- The text between two quotes. -/
theorem eq_quoted {value : Text} (hfirst : value.head? = some '"')
    (hlast : value.getLast? = some '"') :
    value = '"' :: (value.drop 1).take (value.length - 2) ++ ['"'] ∨
      value = ['"'] ∧ (value.drop 1).take (value.length - 2) = [] := by
  obtain ⟨rest, rfl⟩ : ∃ rest, value = '"' :: rest := List.head?_eq_some_iff.mp hfirst
  cases rest using List.reverseRecOn with
  | nil => exact .inr ⟨rfl, rfl⟩
  | append_singleton rest c =>
    left
    obtain rfl : c = '"' := by
      rw [← List.cons_append, List.getLast?_concat] at hlast
      exact Option.some.inj hlast
    simp

/-- What the loop over the parameters makes of a new instance. -/
theorem valued_of_updateParam {param : Param} {p : ParamInstance}
    (h : updateParam modelIni moduleName (.new param) = some p) :
    Valued modelIni moduleName param p := by
  rw [updateParam] at h
  split at h
  next hempty =>
    obtain rfl := Option.some.inj h
    exact ⟨rfl, fun _ => rfl, fun hne => absurd hempty hne, fun hne => absurd hempty hne⟩
  next hne =>
    split at h
    next hstring =>
      split at h
      next hquotes =>
        obtain rfl := Option.some.inj h
        have hnot : param.isString ≠ false := fun hother => Bool.false_ne_true (hother ▸ hstring)
        exact ⟨rfl, fun he => absurd he hne, fun _ hother => absurd hother hnot,
          fun _ _ => eq_quoted hquotes.1 hquotes.2⟩
      next => cases h
    next hother =>
      obtain rfl := Option.some.inj h
      exact ⟨rfl, fun he => absurd he hne, fun _ _ => rfl, fun _ hstring => absurd hstring hother⟩

namespace Sources

/-- A model that is parsed has the root that its configuration describes. -/
theorem parseModel_root {parseInstance : GroupMap → Text → Option (Option Instance)}
    {fileName : Text} {model : ParsedModel} {root : Instance}
    (h : src.parseModel parseInstance fileName = some (some model))
    (hroot : model.rootModule = some root) :
    ∃ ini, src.modelIni fileName = some ini ∧
      parseInstance ini (rootName ini) = some (some root) := by
  rw [parseModel] at h
  split at h
  next =>
    obtain ⟨directory, -, h⟩ := Option.bind_eq_some_iff.mp h
    split at h
    next => cases h
    next =>
      obtain ⟨fullName, -, h⟩ := Option.bind_eq_some_iff.mp h
      obtain ⟨ini, hini, h⟩ := Option.bind_eq_some_iff.mp h
      split at h
      next =>
        obtain ⟨saveAllParams, -, h⟩ := Option.bind_eq_some_iff.mp h
        obtain ⟨rootModule, hparse, h⟩ := Option.bind_eq_some_iff.mp h
        obtain rfl := Option.some.inj (Option.some.inj h)
        obtain rfl : rootModule = some root := hroot
        exact ⟨ini, hini, hparse⟩
      next => cases h
  next => cases h

/-- What is put into a place provides its type, and was parsed for the name it requires. -/
theorem parseSubModule_some {parseInstance : GroupMap → Text → Option (Option Instance)}
    {requiresType : Text} {t : Instance}
    (h : parseSubModule parseInstance modelIni moduleName requiresType = some (some t)) :
    t.label.module.provides = requiresType ∧
      parseInstance modelIni (get modelIni (requiresGroup moduleName) requiresType [])
        = some (some t) := by
  rw [parseSubModule] at h
  split at h
  next => cases h
  next =>
    obtain ⟨subModule, hsub, hfilter⟩ := Option.map_eq_some_iff.mp h
    obtain ⟨rfl, hprovides⟩ := Option.filter_eq_some_iff.mp hfilter
    exact ⟨of_decide_eq_true hprovides, hsub⟩

/-- By induction on the fuel, which every instance and every submodel takes one of. -/
theorem wellTyped_of_parseModuleInstance {n : ℕ} {t : Instance}
    (h : src.parseModuleInstance n modelIni moduleName = some (some t)) :
    WellTyped src modelIni moduleName t := by
  induction n generalizing modelIni moduleName t with
  | zero => cases h
  | succ n ih =>
    rw [parseModuleInstance] at h
    split at h
    next hfile =>
      obtain ⟨model, hmodel, hroot⟩ := Option.map_eq_some_iff.mp h
      obtain ⟨submodel, rfl, hroot⟩ := Option.bind_eq_some_iff.mp hroot
      obtain ⟨ini, hini, hparse⟩ := parseModel_root hmodel hroot
      exact .of_submodel hfile hini (ih hparse)
    next hfile =>
      obtain ⟨parsed, -, h⟩ := Option.bind_eq_some_iff.mp h
      split at h
      next => cases h
      next module =>
        split at h
        next => cases h
        next paramInstanceList hparams =>
          obtain ⟨subModules, hsubs, h⟩ := Option.map_eq_some_iff.mp h
          obtain rfl := Option.some.inj h
          have hplaces := List.forall₂_of_mapM hsubs
          have hplace : ∀ (i : ℕ) r t, module.requiresList[i]? = some r →
              subModules[i]? = some (some t) →
              parseSubModule (src.parseModuleInstance n) modelIni moduleName r
                = some (some t) := by
            intro i r t hr ht
            obtain ⟨hi, rfl⟩ := List.getElem?_eq_some_iff.mp hr
            obtain ⟨hi', hti⟩ := List.getElem?_eq_some_iff.mp ht
            exact hti ▸ hplaces.get hi hi'
          refine .node (.module (Bool.eq_false_of_not_eq_true hfile)) ?_ hplaces.length_eq.symm
            ?_ ?_
          · have hvalues := List.forall₂_of_mapM hparams
            rw [List.forall₂_map_left_iff] at hvalues
            exact hvalues.imp fun _ _ => valued_of_updateParam
          · intro i r t hr ht
            exact (parseSubModule_some (hplace i r t hr ht)).1
          · intro i r t hr ht
            exact ih (parseSubModule_some (hplace i r t hr ht)).2

variable {P Q : GroupMap → Text → Option (Option Instance)}

theorem parseModel_mono (hPQ : ∀ ini name r, P ini name = some r → Q ini name = some r)
    {fileName : Text} {r : Option ParsedModel} (h : src.parseModel P fileName = some r) :
    src.parseModel Q fileName = some r := by
  rw [parseModel] at h ⊢
  split at h
  next hsuffix =>
    rw [if_pos hsuffix]
    obtain ⟨directory, hdirectory, h⟩ := Option.bind_eq_some_iff.mp h
    refine Option.bind_eq_some_iff.mpr ⟨directory, hdirectory, ?_⟩
    split at h
    next hdir => rwa [if_pos hdir]
    next hdir =>
      rw [if_neg hdir]
      obtain ⟨fullName, hfull, h⟩ := Option.bind_eq_some_iff.mp h
      obtain ⟨ini, hini, h⟩ := Option.bind_eq_some_iff.mp h
      refine Option.bind_eq_some_iff.mpr ⟨fullName, hfull,
        Option.bind_eq_some_iff.mpr ⟨ini, hini, ?_⟩⟩
      split at h
      next haccepts =>
        rw [if_pos haccepts]
        obtain ⟨saveAllParams, hsave, h⟩ := Option.bind_eq_some_iff.mp h
        obtain ⟨rootModule, hparse, h⟩ := Option.bind_eq_some_iff.mp h
        exact Option.bind_eq_some_iff.mpr ⟨saveAllParams, hsave,
          Option.bind_eq_some_iff.mpr ⟨rootModule, hPQ _ _ _ hparse, h⟩⟩
      next haccepts => rwa [if_neg haccepts]
  next hsuffix => rwa [if_neg hsuffix]

theorem parseSubModule_mono (hPQ : ∀ ini name r, P ini name = some r → Q ini name = some r)
    {requiresType : Text} {r : Option Instance}
    (h : parseSubModule P modelIni moduleName requiresType = some r) :
    parseSubModule Q modelIni moduleName requiresType = some r := by
  rw [parseSubModule] at h ⊢
  split at h
  next hempty => rwa [if_pos hempty]
  next hne =>
    rw [if_neg hne]
    obtain ⟨subModule, hsub, h⟩ := Option.map_eq_some_iff.mp h
    exact Option.map_eq_some_iff.mpr ⟨subModule, hPQ _ _ _ hsub, h⟩

/-- A result does not depend on the fuel. -/
theorem parseModuleInstance_succ {n : ℕ} {r : Option Instance}
    (h : src.parseModuleInstance n modelIni moduleName = some r) :
    src.parseModuleInstance (n + 1) modelIni moduleName = some r := by
  induction n generalizing modelIni moduleName r with
  | zero => cases h
  | succ n ih =>
    rw [parseModuleInstance] at h ⊢
    split at h
    next hfile =>
      rw [if_pos hfile]
      obtain ⟨submodel, hsub, h⟩ := Option.map_eq_some_iff.mp h
      exact Option.map_eq_some_iff.mpr ⟨submodel, parseModel_mono (fun _ _ _ => ih) hsub, h⟩
    next hfile =>
      rw [if_neg hfile]
      obtain ⟨parsed, hparsed, h⟩ := Option.bind_eq_some_iff.mp h
      refine Option.bind_eq_some_iff.mpr ⟨parsed, hparsed, ?_⟩
      cases parsed with
      | none => exact h
      | some module =>
        cases hparams : (module.paramList.map .new).mapM (updateParam modelIni moduleName) with
        | none => simpa only [hparams] using h
        | some paramInstanceList =>
          simp only [hparams] at h ⊢
          obtain ⟨subModules, hsubs, h⟩ := Option.map_eq_some_iff.mp h
          refine Option.map_eq_some_iff.mpr ⟨subModules, ?_, h⟩
          exact List.mapM_of_forall₂ ((List.forall₂_of_mapM hsubs).imp fun _ _ =>
            parseSubModule_mono fun _ _ _ => ih)

theorem parse_of_le {n m : ℕ} (hnm : n ≤ m) {fileName : Text} {r : Option ParsedModel}
    (h : src.parse n fileName = some r) : src.parse m fileName = some r := by
  induction hnm with
  | refl => exact h
  | step _ ih => exact parseModel_mono (fun _ _ _ => parseModuleInstance_succ) ih

end Sources

/-- The tree of every model that is parsed and has a root. -/
theorem parse_wellTyped (src : Sources Dir) (fuel : ℕ) (fileName : Text) (model : ParsedModel)
    (root : Instance) (h : src.parse fuel fileName = some (some model))
    (hroot : model.rootModule = some root) :
    ∃ ini, src.modelIni fileName = some ini ∧ WellTyped src ini (rootName ini) root := by
  obtain ⟨ini, hini, hparse⟩ := Sources.parseModel_root h hroot
  exact ⟨ini, hini, Sources.wellTyped_of_parseModuleInstance hparse⟩

/-- A model whose module takes two parameters from its group, gets its core from a submodel and
has nothing for its cache. -/
def mainText : Text :=
  ("[Global]\nVersion=2.0\nFile=main\n[Model]\nmodel=top\n[top]\nFile=top.awb\n" ++
    "[top/Params]\nSIZE=8\nTITLE=\"big\"\n[top/Requires]\ncore=sub\n[sub]\nFile=sub.apm\n").toList

def subText : Text :=
  "[Global]\nVersion=2.0\nFile=sub\n[Model]\nmodel=core\n[core]\nFile=core.awb\n".toList

def topModule : ParsedModule where
  name := "Top".toList
  provides := "model".toList
  requiresList := ["core".toList, "cache".toList]
  paramList := [⟨⟨"SIZE".toList, "uint32".toList, .local, .model⟩, "4".toList⟩,
    ⟨⟨"TITLE".toList, "string".toList, .local, .model⟩, "small".toList⟩,
    ⟨⟨"DEPTH".toList, "uint32".toList, .local, .model⟩, "2".toList⟩]

def coreModule : ParsedModule where
  name := "Core".toList
  provides := "core".toList

def mainSources : Sources Unit where
  fs :=
    { read := fun _ fileName =>
        if fileName = "/src/main.apm".toList then some mainText
        else if fileName = "/src/sub.apm".toList then some subText else none
      chdir := fun _ _ => some ()
      stdin := [] }
  dir := ()
  includeDepth := 1
  host :=
    { fileExists := fun _ => true
      isDirectory := fun _ => false
      openDir := fun _ => false
      openIn := fun _ => true
      expandTilde := id
      glob := fun _ _ => [] }
  sourceTree := ⟨["/src".toList], by simp [isAbsolutePath]⟩
  parseModule := fun fileName => some
    (if fileName = "top.awb".toList then some topModule
      else if fileName = "core.awb".toList then some coreModule else none)

theorem parse_wellTyped_main :
    ∃ model root, mainSources.parse 3 "main.apm".toList = some (some model) ∧
      model.rootModule = some root ∧
      root.subs.map Option.isSome = [true, false] ∧
      ∃ ini, mainSources.modelIni "main.apm".toList = some ini ∧
        WellTyped mainSources ini (rootName ini) root := by
  have hparse : (mainSources.parse 3 "main.apm".toList).any (fun model => model.any fun model =>
      model.rootModule.any fun root => root.subs.map Option.isSome = [true, false]) = true := by
    decide +kernel
  obtain ⟨parsed, hparsed, hmodel⟩ := (Option.any_eq_true _ _).mp hparse
  obtain ⟨model, rfl, hplaces⟩ := (Option.any_eq_true _ _).mp hmodel
  obtain ⟨root, hroot, hsubs⟩ := (Option.any_eq_true _ _).mp hplaces
  exact ⟨model, root, hparsed, hroot, of_decide_eq_true hsubs,
    parse_wellTyped mainSources 3 _ model root hparsed hroot⟩

end Awb.Apm
