import Awb.Apm.WellTyped
import Awb.Inifile.Includes

/-! How `Model::Parse` and `Model::ParseModuleInstance` end, if they do: with a result, or with the
exit of the program. Modules may require one another in a cycle, and models may use one another as
submodels; there is no test for either. -/

namespace Awb.Apm
open Inifile

/-- What a call comes to: `none` as long as it goes on, `some none` if the program exits. -/
abbrev Ending := OptionT Option

def Ending.running {α : Type} : Ending α := OptionT.mk none

/-- A result, or the exit of the program. -/
def Ending.orExit {α : Type} (result : Option α) : Ending α := OptionT.mk (some result)

/-- Where models and modules come from, with the process that reads the ini files. -/
structure Project (Dir : Type) where
  process : Process Dir
  dir : Dir
  host : Host
  sourceTree : UnionDir
  parseModule : Text → Option (Option ParsedModule)

/-- The two functions that call each other. -/
inductive Call where
  | model (modelFileName : Text)
  | instance (modelIni : GroupMap) (moduleName : Text)

/-- The call for a required type, if the configuration has a name for it. -/
def requiresCall (modelIni : GroupMap) (moduleName requiresType : Text) : Option Call :=
  let requiresName := get modelIni (requiresGroup moduleName) requiresType []
  if requiresName = [] then none else some (.instance modelIni requiresName)

namespace Project
open Ending
variable {Dir : Type} (p : Project Dir)

/-- The constructor of `IniFile`. -/
def iniFile (fuel : ℕ) (theFileName : Text) : Ending GroupMap :=
  OptionT.mk ((p.process.parse fuel p.dir theFileName ∅).map fun outcome =>
    outcome.result.map Prod.fst)

/-- `Model::Parse` up to the root module. -/
def readModel (fuel : ℕ) (modelFileName : Text) : Ending (Option (GroupMap × ParsedModel)) :=
  if ".apm".toList <:+ modelFileName then do
    let directory ← orExit (p.sourceTree.isDirectory p.host modelFileName)
    if directory then return none
    else
      let fullName ← orExit (p.sourceTree.fullName p.host modelFileName)
      let modelIni ← p.iniFile fuel fullName
      if Sources.acceptsConfig modelIni modelFileName then
        let saveAllParams ← orExit (stringToBool
          (get modelIni "Global".toList "SaveParameters".toList "TRUE".toList))
        return some (modelIni,
          { fileName := fileRoot (fileTail modelFileName)
            configFile := fullName
            name := get modelIni "Global".toList "Name".toList []
            desc := get modelIni "Global".toList "Description".toList []
            defaultAttributeList := (splitString " \t".toList
              (get modelIni "Model".toList "DefaultAttributes".toList [])).filter (· ≠ [])
            saveAllParams
            rootModule := none })
      else return none
  else return none

/-- The module of an instance with its parameters, before its submodules are parsed. -/
def readModule (modelIni : GroupMap) (moduleName : Text) : Ending (Option Node) := do
  match ← orExit (p.parseModule (get modelIni moduleName "File".toList [])) with
  | none => return none
  | some module =>
    return ((module.paramList.map .new).mapM (updateParam modelIni moduleName)).map fun params =>
      ⟨module, params⟩

/-- What goes into the place for a required type. -/
def parseSubModule (parseModuleInstance : GroupMap → Text → Ending (Option Instance))
    (modelIni : GroupMap) (moduleName requiresType : Text) : Ending (Option Instance) :=
  let requiresName := get modelIni (requiresGroup moduleName) requiresType []
  if requiresName = [] then return none
  else do
    let subModule ← parseModuleInstance modelIni requiresName
    return subModule.filter fun t => t.label.module.provides = requiresType

mutual

/-- `Model::Parse`. -/
def parseModel : ℕ → Text → Ending (Option ParsedModel)
  | 0, _ => running
  | fuel + 1, modelFileName => do
    match ← p.readModel fuel modelFileName with
    | none => return none
    | some (modelIni, model) =>
      let rootModule ← parseModuleInstance fuel modelIni (rootName modelIni)
      return some { model with rootModule }

/-- `Model::ParseModuleInstance`. -/
def parseModuleInstance : ℕ → GroupMap → Text → Ending (Option Instance)
  | 0, _, _ => running
  | fuel + 1, modelIni, moduleName =>
    let moduleFileName := get modelIni moduleName "File".toList []
    if isModelFile moduleFileName then do
      let submodel ← parseModel fuel moduleFileName
      return submodel.bind (·.rootModule)
    else do
      match ← p.readModule modelIni moduleName with
      | none => return none
      | some node =>
        let subModules ← node.module.requiresList.mapM
          (parseSubModule (parseModuleInstance fuel) modelIni moduleName)
        return some (.node node subModules)

end

/-- What a call needs before it returns. -/
def expand (fuel : ℕ) : Call → Option (Option (List Call))
  | .model modelFileName => (p.readModel fuel modelFileName).run.map fun read =>
    read.map fun header => header.toList.map fun header => .instance header.1 (rootName header.1)
  | .instance modelIni moduleName =>
    let moduleFileName := get modelIni moduleName "File".toList []
    if isModelFile moduleFileName then some (some [.model moduleFileName])
    else (p.readModule modelIni moduleName).run.map fun read =>
      read.map fun node => node.toList.flatMap fun node =>
        node.module.requiresList.filterMap (requiresCall modelIni moduleName)

end Project

/-! ### Endings -/

namespace Ending
variable {α β : Type} {x y : Ending α} {f g : α → Ending β}

/-- Whether a call returns, as far as it ends. -/
def status (x : Ending α) : Option Bool := x.run.map Option.isSome

theorem run_bind (x : Ending α) (f : α → Ending β) :
    (x >>= f).run = x.run.bind fun r => r.elim (some none) fun a => (f a).run := by
  change Option.bind x.run _ = _
  congr 1
  funext r
  cases r <;> rfl

theorem status_bind (x : Ending α) (f : α → Ending β) :
    (x >>= f).status = x.run.bind fun r => r.elim (some false) fun a => (f a).status := by
  rw [status, run_bind]
  rcases x.run with _ | _ | a <;> rfl

/-- A call that returns went on with the result of the first one. -/
theorem run_bind_eq_some_iff {b : β} : (x >>= f).run = some (some b) ↔
    ∃ a, x.run = some (some a) ∧ (f a).run = some (some b) := by
  rw [run_bind]
  rcases x.run with _ | _ | a <;> simp

theorem status_bind_pure (x : Ending α) (h : α → β) :
    (x >>= fun a => pure (h a)).status = x.status := by
  rw [status_bind, status]
  rcases x.run with _ | _ | a <;> rfl

/-- A call with more fuel. -/
def Extends (x y : Ending α) : Prop := ∀ r, x.run = some r → y.run = some r

theorem Extends.refl (x : Ending α) : Extends x x := fun _ h => h

theorem Extends.bind (hxy : Extends x y) (hfg : ∀ a, Extends (f a) (g a)) :
    Extends (x >>= f) (y >>= g) := by
  intro r h
  rw [run_bind] at h ⊢
  obtain ⟨read, hread, hrest⟩ := Option.bind_eq_some_iff.mp h
  rw [hxy read hread, Option.bind_some]
  cases read with
  | none => exact hrest
  | some a => exact hfg a r hrest

/-- A loop that calls for some of the elements of a list. -/
theorem status_mapM {γ : Type} {v : γ → Option Bool} {call : α → Option γ}
    (hf : ∀ a, (f a).status = (call a).elim (some true) v) (l : List α) :
    (l.mapM f).status = Traverse.visitAll v (l.filterMap call) := by
  induction l with
  | nil => rfl
  | cons a l ih =>
    rw [List.mapM_cons, Traverse.visitAll_filterMap_cons, ← hf, ← ih, status_bind, status]
    rcases (f a).run with _ | _ | b
    · rfl
    · rfl
    · exact status_bind_pure (l.mapM f) (b :: ·)

/-- A loop that returns, against one that ends with the same results. -/
theorem run_mapM {g : α → Option β} (hfg : ∀ a b, (f a).run = some (some b) → g a = some b)
    {l : List α} {results : List β} (h : (l.mapM f).run = some (some results)) :
    l.mapM g = some results := by
  induction l generalizing results with
  | nil => exact Option.some.inj h
  | cons a l ih =>
    rw [List.mapM_cons] at h ⊢
    obtain ⟨b, hb, h⟩ := run_bind_eq_some_iff.mp h
    obtain ⟨rest, hrest, h⟩ := run_bind_eq_some_iff.mp h
    obtain rfl := Option.some.inj (Option.some.inj h)
    rw [hfg a b hb, ih hrest]
    rfl

end Ending

namespace Project
open Ending
variable {Dir : Type} {p : Project Dir}

theorem parseSubModule_status {inner : GroupMap → Text → Ending (Option Instance)}
    {v : Call → Option Bool} {modelIni : GroupMap} {moduleName : Text}
    (hinner : ∀ modelIni moduleName,
      (inner modelIni moduleName).status = v (.instance modelIni moduleName))
    (requiresType : Text) : (parseSubModule inner modelIni moduleName requiresType).status =
      (requiresCall modelIni moduleName requiresType).elim (some true) v := by
  rw [parseSubModule, requiresCall]
  by_cases h : get modelIni (requiresGroup moduleName) requiresType [] = []
  · rw [if_pos h, if_pos h]
    rfl
  · rw [if_neg h, if_neg h, status_bind_pure, hinner]
    rfl

/-- Both functions end as the visits of their calls do. -/
theorem status_eq (fuel : ℕ) :
    (∀ modelFileName, (p.parseModel fuel modelFileName).status =
      Traverse.visit p.expand fuel (.model modelFileName)) ∧
    ∀ modelIni moduleName, (p.parseModuleInstance fuel modelIni moduleName).status =
      Traverse.visit p.expand fuel (.instance modelIni moduleName) := by
  induction fuel with
  | zero => exact ⟨fun _ => rfl, fun _ _ => rfl⟩
  | succ fuel ih =>
    obtain ⟨ihModel, ihInstance⟩ := ih
    refine ⟨fun modelFileName => ?_, fun modelIni moduleName => ?_⟩
    · rw [parseModel, Traverse.visit, expand, status_bind]
      rcases (p.readModel fuel modelFileName).run with _ | _ | _ | ⟨modelIni, model⟩
      · rfl
      · rfl
      · rfl
      · refine (status_bind_pure _ _).trans ?_
        rw [ihInstance]
        exact (Traverse.visitAll_singleton ..).symm
    · rw [parseModuleInstance, Traverse.visit, expand]
      split
      next hfile =>
        rw [status_bind_pure, ihModel]
        exact (Traverse.visitAll_singleton ..).symm
      next hfile =>
        rw [status_bind]
        rcases (p.readModule modelIni moduleName).run with _ | _ | _ | node
        · rfl
        · rfl
        · rfl
        · refine (status_bind_pure _ _).trans ?_
          rw [status_mapM (parseSubModule_status ihInstance)]
          exact congrArg (Traverse.visitAll _) (List.append_nil _).symm

/-! ### More fuel -/

section Fuel
variable {fuel more : ℕ} (hle : fuel ≤ more)
include hle

theorem iniFile_extends (theFileName : Text) :
    Extends (p.iniFile fuel theFileName) (p.iniFile more theFileName) := by
  intro r h
  obtain ⟨outcome, houtcome, heq⟩ := Option.map_eq_some_iff.mp h
  exact Option.map_eq_some_iff.mpr ⟨outcome, Process.parse_mono hle houtcome, heq⟩

theorem readModel_extends (modelFileName : Text) :
    Extends (p.readModel fuel modelFileName) (p.readModel more modelFileName) := by
  rw [readModel, readModel]
  split
  next =>
    refine (Extends.refl _).bind fun directory => ?_
    split
    next => exact Extends.refl _
    next =>
      refine (Extends.refl _).bind fun fullName => ?_
      exact (iniFile_extends hle fullName).bind fun modelIni => Extends.refl _
  next => exact Extends.refl _

end Fuel

theorem stable_expand (p : Project Dir) : Traverse.Stable p.expand := by
  intro fuel more call found hle h
  cases call with
  | model modelFileName =>
    obtain ⟨read, hread, heq⟩ := Option.map_eq_some_iff.mp h
    exact Option.map_eq_some_iff.mpr ⟨read, readModel_extends hle modelFileName read hread, heq⟩
  | «instance» modelIni moduleName => exact h

/-! ### The parser that does not tell how it ends -/

/-- The same models and modules, with a bound for the depth of includes. -/
def sources (p : Project Dir) (includeDepth : ℕ) : Sources Dir where
  fs := p.process.fileSystem
  dir := p.dir
  includeDepth := includeDepth
  host := p.host
  sourceTree := p.sourceTree
  parseModule := p.parseModule

section Sources
variable {fuel depth : ℕ} {modelFileName : Text}
  {inner : GroupMap → Text → Option (Option Instance)}

theorem iniFile_sources {fullName : Text} {modelIni : GroupMap} (hle : fuel ≤ depth)
    (hfull : p.sourceTree.fullName p.host modelFileName = some fullName)
    (h : (p.iniFile fuel fullName).run = some (some modelIni)) :
    (p.sources depth).modelIni modelFileName = some modelIni := by
  obtain ⟨outcome, houtcome, hresult⟩ := Option.map_eq_some_iff.mp h
  obtain ⟨⟨groupMap, warnings⟩, hpair, rfl⟩ := Option.map_eq_some_iff.mp hresult
  have hparse := Process.parse_fixed (Process.parse_mono hle houtcome)
  rw [hpair] at hparse
  exact Option.bind_eq_some_iff.mpr ⟨fullName, hfull, Option.bind_eq_some_iff.mpr
    ⟨(groupMap, warnings), hparse, rfl⟩⟩

theorem readModel_sources {header : Option (GroupMap × ParsedModel)} (hle : fuel ≤ depth)
    (h : (p.readModel fuel modelFileName).run = some (some header)) :
    (p.sources depth).parseModel inner modelFileName =
      header.elim (some none) fun header => (inner header.1 (rootName header.1)).map
        fun rootModule => some { header.2 with rootModule } := by
  rw [readModel] at h
  rw [Sources.parseModel]
  split at h
  next hsuffix =>
    rw [if_pos hsuffix]
    obtain ⟨directory, hdirectory, h⟩ := run_bind_eq_some_iff.mp h
    refine (congrArg (Option.bind · _) (Option.some.inj hdirectory)).trans ?_
    rw [Option.bind_some]
    split at h
    next hdir =>
      rw [if_pos hdir]
      obtain rfl := Option.some.inj (Option.some.inj h)
      rfl
    next hdir =>
      rw [if_neg hdir]
      obtain ⟨fullName, hfull, h⟩ := run_bind_eq_some_iff.mp h
      obtain ⟨modelIni, hini, h⟩ := run_bind_eq_some_iff.mp h
      refine (congrArg (Option.bind · _) (Option.some.inj hfull)).trans ?_
      rw [Option.bind_some]
      refine (congrArg (Option.bind · _)
        (iniFile_sources hle (Option.some.inj hfull) hini)).trans ?_
      rw [Option.bind_some]
      split at h
      next haccepts =>
        rw [if_pos haccepts]
        obtain ⟨saveAllParams, hsave, h⟩ := run_bind_eq_some_iff.mp h
        obtain rfl := Option.some.inj (Option.some.inj h)
        refine (congrArg (Option.bind · _) (Option.some.inj hsave)).trans ?_
        rw [Option.bind_some, Option.elim_some]
        cases inner modelIni (rootName modelIni) <;> rfl
      next haccepts =>
        rw [if_neg haccepts]
        obtain rfl := Option.some.inj (Option.some.inj h)
        rfl
  next hsuffix =>
    rw [if_neg hsuffix]
    obtain rfl := Option.some.inj (Option.some.inj h)
    rfl

theorem parseSubModule_sources {calls : GroupMap → Text → Ending (Option Instance)}
    {modelIni : GroupMap} {moduleName requiresType : Text} {result : Option Instance}
    (hinner : ∀ modelIni moduleName result,
      (calls modelIni moduleName).run = some (some result) →
        inner modelIni moduleName = some result)
    (h : (parseSubModule calls modelIni moduleName requiresType).run = some (some result)) :
    Sources.parseSubModule inner modelIni moduleName requiresType = some result := by
  rw [parseSubModule] at h
  rw [Sources.parseSubModule]
  split at h
  next hempty =>
    rw [if_pos hempty]
    exact Option.some.inj h
  next hne =>
    rw [if_neg hne]
    obtain ⟨subModule, hsub, h⟩ := run_bind_eq_some_iff.mp h
    obtain rfl := Option.some.inj (Option.some.inj h)
    exact Option.map_eq_some_iff.mpr ⟨subModule, hinner _ _ _ hsub, rfl⟩

/-- What is returned is what that parser gives. -/
theorem parse_sources (hle : fuel ≤ depth) :
    (∀ modelFileName result, (p.parseModel fuel modelFileName).run = some (some result) →
      (p.sources depth).parse fuel modelFileName = some result) ∧
    ∀ modelIni moduleName result,
      (p.parseModuleInstance fuel modelIni moduleName).run = some (some result) →
        (p.sources depth).parseModuleInstance fuel modelIni moduleName = some result := by
  induction fuel with
  | zero => exact ⟨fun _ _ h => (by cases h), fun _ _ _ h => (by cases h)⟩
  | succ fuel ih =>
    obtain ⟨ihModel, ihInstance⟩ := ih (Nat.le_of_succ_le hle)
    refine ⟨fun modelFileName result h => ?_, fun modelIni moduleName result h => ?_⟩
    · rw [parseModel] at h
      obtain ⟨header, hread, h⟩ := run_bind_eq_some_iff.mp h
      rw [Sources.parse, readModel_sources (Nat.le_of_succ_le hle) hread]
      rcases header with _ | ⟨modelIni, model⟩
      · exact Option.some.inj h
      · obtain ⟨rootModule, hroot, h⟩ := run_bind_eq_some_iff.mp h
        obtain rfl := Option.some.inj (Option.some.inj h)
        rw [Option.elim_some, Sources.parseModuleInstance_succ (ihInstance _ _ _ hroot)]
        rfl
    · rw [parseModuleInstance] at h
      rw [Sources.parseModuleInstance]
      split at h
      next hfile =>
        rw [if_pos hfile]
        obtain ⟨submodel, hsub, h⟩ := run_bind_eq_some_iff.mp h
        obtain rfl := Option.some.inj (Option.some.inj h)
        exact Option.map_eq_some_iff.mpr ⟨submodel, ihModel _ _ hsub, rfl⟩
      next hfile =>
        rw [if_neg hfile]
        obtain ⟨read, hread, h⟩ := run_bind_eq_some_iff.mp h
        obtain ⟨parsed, hparsed, hread⟩ := run_bind_eq_some_iff.mp hread
        refine (congrArg (Option.bind · _) (Option.some.inj hparsed)).trans ?_
        rw [Option.bind_some]
        cases parsed with
        | none =>
          obtain rfl := Option.some.inj (Option.some.inj hread)
          exact Option.some.inj h
        | some module =>
          obtain rfl := Option.some.inj (Option.some.inj hread)
          cases hparams : (module.paramList.map .new).mapM (updateParam modelIni moduleName) with
          | none =>
            rw [hparams] at h
            simp only [hparams]
            exact Option.some.inj h
          | some paramInstanceList =>
            rw [hparams] at h
            obtain ⟨subModules, hsubs, h⟩ := run_bind_eq_some_iff.mp h
            obtain rfl := Option.some.inj (Option.some.inj h)
            simp only [hparams]
            refine Option.map_eq_some_iff.mpr ⟨subModules, ?_, rfl⟩
            exact run_mapM (fun _ _ => parseSubModule_sources ihInstance) hsubs

end Sources

/-- A model with a submodel. -/
def mainProject : Project Unit where
  process := .oneDirectory fun fileName =>
    if fileName = "/src/main.apm".toList then .file mainText
    else if fileName = "/src/sub.apm".toList then .file subText else .absent
  dir := ()
  host := mainSources.host
  sourceTree := mainSources.sourceTree
  parseModule := mainSources.parseModule

theorem parse_mainProject : ∃ result,
    (mainProject.parseModel 5 "main.apm".toList).run = some (some result) ∧
      (mainProject.sources 5).parse 5 "main.apm".toList = some result := by
  have hreturns : ((mainProject.parseModel 5 "main.apm".toList).run.any Option.isSome) = true := by
    decide +kernel
  obtain ⟨read, hread, hsome⟩ := (Option.any_eq_true _ _).mp hreturns
  obtain ⟨result, rfl⟩ := Option.isSome_iff_exists.mp hsome
  exact ⟨result, hread, (parse_sources le_rfl).1 _ _ hread⟩

/-! ### The results -/

/-- Behind calls that return there is one that exits the program. -/
def MeetsExit (p : Project Dir) (call : Call) : Prop :=
  ∃ call', Relation.ReflTransGen (Traverse.Reaches p.expand) call call' ∧
    Traverse.Fails p.expand call'

section Call
variable {α : Type} {x : ℕ → Ending α} {call : Call}
  (hx : ∀ fuel, (x fuel).status = Traverse.visit p.expand fuel call)
include hx

theorem returns_iff :
    (∃ fuel result, (x fuel).run = some (some result)) ↔ Traverse.Complete p.expand call := by
  rw [← Traverse.visit_eq_true_iff p.stable_expand]
  refine exists_congr fun fuel => ?_
  rw [← hx, status]
  rcases (x fuel).run with _ | _ | result <;> simp

theorem exits_iff : (∃ fuel, (x fuel).run = some none) ↔ p.MeetsExit call := by
  refine Iff.trans (exists_congr fun fuel => ?_) (Traverse.visit_eq_false_iff p.stable_expand)
  rw [← hx, status]
  rcases (x fuel).run with _ | _ | result <;> simp

theorem exists_result {calls : Set Call} (hfinite : calls.Finite)
    (hcalls : ∀ call ∈ calls, (Traverse.Opens p.expand call ∨ Traverse.Fails p.expand call) ∧
      (∀ call', Traverse.Needs p.expand call call' → call' ∈ calls) ∧
      ¬ Relation.TransGen (Traverse.Needs p.expand) call call) (hcall : call ∈ calls) :
    ∃ fuel result, (x fuel).run = some result := by
  have hends := Traverse.acc_of_finite hfinite (fun call h => (hcalls call h).2.1)
    (fun call h => (hcalls call h).2.2) hcall
  have hmem : ∀ call', Relation.ReflTransGen (Traverse.Needs p.expand) call call' →
      call' ∈ calls := fun call' h => by
    induction h with
    | refl => exact hcall
    | tail _ hneeds ih => exact (hcalls _ ih).2.1 _ hneeds
  obtain ⟨fuel, ok, h⟩ := Traverse.exists_visit p.stable_expand hends fun call' h =>
    (hcalls call' (hmem call' h)).1
  rw [← hx] at h
  obtain ⟨result, h, -⟩ := Option.map_eq_some_iff.mp h
  exact ⟨fuel, result, h⟩

end Call

/-- Either function returns exactly if no endless path of calls leaves it and none of the calls
below it exits, and the program exits exactly if that is met behind calls that return. So it ends
for finitely many calls without a cycle, if their ini files can be read to the end. -/
theorem parse_ends_iff (p : Project Dir) :
    (∀ modelFileName,
      ((∃ fuel result, (p.parseModel fuel modelFileName).run = some (some result)) ↔
        Traverse.Complete p.expand (.model modelFileName)) ∧
      ((∃ fuel, (p.parseModel fuel modelFileName).run = some none) ↔
        p.MeetsExit (.model modelFileName))) ∧
    (∀ modelIni moduleName,
      ((∃ fuel result, (p.parseModuleInstance fuel modelIni moduleName).run =
        some (some result)) ↔ Traverse.Complete p.expand (.instance modelIni moduleName)) ∧
      ((∃ fuel, (p.parseModuleInstance fuel modelIni moduleName).run = some none) ↔
        p.MeetsExit (.instance modelIni moduleName))) ∧
    ∀ calls : Set Call, calls.Finite →
      (∀ call ∈ calls, (Traverse.Opens p.expand call ∨ Traverse.Fails p.expand call) ∧
        (∀ call', Traverse.Needs p.expand call call' → call' ∈ calls) ∧
        ¬ Relation.TransGen (Traverse.Needs p.expand) call call) →
      (∀ modelFileName, .model modelFileName ∈ calls →
        ∃ fuel result, (p.parseModel fuel modelFileName).run = some result) ∧
      ∀ modelIni moduleName, .instance modelIni moduleName ∈ calls →
        ∃ fuel result, (p.parseModuleInstance fuel modelIni moduleName).run = some result := by
  have hmodel : ∀ modelFileName fuel, (p.parseModel fuel modelFileName).status =
      Traverse.visit p.expand fuel (.model modelFileName) :=
    fun modelFileName fuel => (status_eq fuel).1 modelFileName
  have hinstance : ∀ modelIni moduleName fuel,
      (p.parseModuleInstance fuel modelIni moduleName).status =
        Traverse.visit p.expand fuel (.instance modelIni moduleName) :=
    fun modelIni moduleName fuel => (status_eq fuel).2 modelIni moduleName
  refine ⟨fun f => ⟨returns_iff (hmodel f), exits_iff (hmodel f)⟩,
    fun ini name => ⟨returns_iff (hinstance ini name), exits_iff (hinstance ini name)⟩, ?_⟩
  intro calls hfinite hcalls
  exact ⟨fun f hf => exists_result (hmodel f) hfinite hcalls hf,
    fun ini name hname => exists_result (hinstance ini name) hfinite hcalls hname⟩

/-- A model whose only module requires itself. -/
def loopText : Text :=
  ("[Global]\nVersion=2.0\nFile=loop\n[Model]\nmodel=top\n[top]\nFile=top.awb\n" ++
    "[top/Requires]\nmodel=top\n").toList

def loopProject : Project Unit where
  process := .oneDirectory fun fileName =>
    if fileName = "/src/loop.apm".toList then .file loopText else .absent
  dir := ()
  host := mainSources.host
  sourceTree := mainSources.sourceTree
  parseModule _ := some (some { name := "Top".toList, provides := "model".toList,
                                requiresList := ["model".toList] })

theorem expand_loopProject : ∃ modelIni, rootName modelIni = "top".toList ∧
    (∀ fuel, loopProject.expand (fuel + 1) (.model "loop.apm".toList) =
      some (some [.instance modelIni "top".toList])) ∧
    ∀ fuel, loopProject.expand fuel (.instance modelIni "top".toList) =
      some (some [.instance modelIni "top".toList]) := by
  have hchecks : ((loopProject.readModel 1 "loop.apm".toList).run.any fun read =>
      read.any fun header => header.any fun header =>
        rootName header.1 = "top".toList ∧
        isModelFile (get header.1 "top".toList "File".toList []) = false ∧
        get header.1 (requiresGroup "top".toList) "model".toList [] = "top".toList) = true := by
    decide +kernel
  obtain ⟨_, hread, hreturns⟩ := (Option.any_eq_true _ _).mp hchecks
  obtain ⟨_, rfl, haccepts⟩ := (Option.any_eq_true _ _).mp hreturns
  obtain ⟨⟨modelIni, model⟩, rfl, hheader⟩ := (Option.any_eq_true _ _).mp haccepts
  obtain ⟨hroot, hfile, hname⟩ := of_decide_eq_true hheader
  simp only at hroot hfile hname
  refine ⟨modelIni, hroot, fun fuel => ?_, fun fuel => ?_⟩
  · refine loopProject.stable_expand 1 (fuel + 1) _ _ (Nat.le_add_left ..) ?_
    rw [expand, hread, ← hroot]
    rfl
  · have hcall : requiresCall modelIni "top".toList "model".toList =
        some (.instance modelIni "top".toList) := by
      rw [requiresCall, hname]
      rfl
    rw [expand, hfile]
    change some (some (["model".toList].filterMap (requiresCall modelIni "top".toList) ++ [])) = _
    rw [List.filterMap_cons_some hcall, List.filterMap_nil, List.append_nil]

/-- It is parsed for ever. -/
theorem not_parse_ends : ¬ ∃ fuel result,
    (loopProject.parseModel fuel "loop.apm".toList).run = some result := by
  rintro ⟨fuel, result, hresult⟩
  obtain ⟨modelIni, -, hmodel, hinstance⟩ := expand_loopProject
  have hloop (fuel : ℕ) :
      Traverse.visit loopProject.expand fuel (.instance modelIni "top".toList) = none := by
    induction fuel with
    | zero => rfl
    | succ fuel ih =>
      rw [Traverse.visit, hinstance, Option.bind_some, Option.elim_some,
        Traverse.visitAll_singleton, ih]
  have hnone : Traverse.visit loopProject.expand fuel (.model "loop.apm".toList) = none := by
    cases h : Traverse.visit loopProject.expand fuel (.model "loop.apm".toList) with
    | none => rfl
    | some ok =>
      have hmore := Traverse.visit_mono loopProject.stable_expand (Nat.le_add_right fuel 2) h
      rw [Traverse.visit, hmodel, Option.bind_some, Option.elim_some,
        Traverse.visitAll_singleton, hloop] at hmore
      cases hmore
  rw [Option.map_eq_none_iff.mp (((status_eq fuel).1 _).trans hnone)] at hresult
  cases hresult

end Project
end Awb.Apm
