import Awb.Builder.Module
import Awb.Inifile.CxxInifile

/-! `Model::Parse`: the configuration of a model in an `.apm` file, and the tree of module
instances it describes. -/

namespace Awb.Apm
open Inifile

/-- A parameter of a module with its default value. -/
structure Param extends ModParam where
  defaultValue : Text
  deriving DecidableEq, Repr

/-- A module with its parameters, as it is parsed from a file. -/
structure ParsedModule extends Module where
  paramList : List Param := []
  deriving DecidableEq, Repr

/-- `ModParamInstance`, with the place its value comes from. -/
structure ParamInstance where
  param : Param
  value : Text
  source : Mutability
  deriving DecidableEq, Repr

/-- `ModuleInstance` without its submodules. -/
structure Node where
  module : ParsedModule
  paramInstanceList : List ParamInstance
  deriving DecidableEq, Repr

abbrev Instance := RoseTree Node

namespace ParamInstance

def new (param : Param) : ParamInstance := ⟨param, param.defaultValue, .module⟩

def setValue (p : ParamInstance) (value : Text) (source : Mutability) : ParamInstance :=
  { p with value, source }

end ParamInstance

/-- `Get` with a default value. -/
def get (modelIni : GroupMap) (group item : Text) (defaultValue : Text) : Text :=
  (Cxx.get modelIni group item).getD defaultValue

/-- The names of the groups of a module, `name/Params` and `name/Requires`. -/
def paramGroup (moduleName : Text) : Text := moduleName ++ "/Params".toList

def requiresGroup (moduleName : Text) : Text := moduleName ++ "/Requires".toList

/-- The body of the loop over the parameters; `none` if the value of a string has no quotes. -/
def updateParam (modelIni : GroupMap) (moduleName : Text) (p : ParamInstance) :
    Option ParamInstance :=
  let modelParamValue := get modelIni (paramGroup moduleName) p.param.name []
  if modelParamValue = [] then some p
  else if p.param.isString then
    if modelParamValue.head? = some '"' ∧ modelParamValue.getLast? = some '"' then
      some (p.setValue ((modelParamValue.drop 1).take (modelParamValue.length - 2)) .model)
    else none
  else some (p.setValue modelParamValue .model)

/-- What a file name is searched for, to tell models from modules. -/
def isModelFile (fileName : Text) : Bool := ".apm".toList <:+: fileName

/-- `StringCmpNocase`. -/
def equalNocase (str other : Text) : Bool := str.map Char.toLower = other.map Char.toLower

/-- `StringToBool`; `none` where the program exits. -/
def stringToBool (input : Text) : Option Bool :=
  if input = [] ∨ input = "0".toList ∨ equalNocase input "OFF".toList ∨
      equalNocase input "NO".toList ∨ equalNocase input "FALSE".toList then some false
  else if input = "1".toList ∨ equalNocase input "ON".toList ∨ equalNocase input "YES".toList ∨
      equalNocase input "TRUE".toList then some true
  else none

/-- A model after it was parsed. -/
structure ParsedModel where
  fileName : Text
  configFile : Text
  name : Text
  desc : Text
  defaultAttributeList : List Text
  saveAllParams : Bool
  rootModule : Option Instance

/-- Where models and modules come from. -/
structure Sources (Dir : Type) where
  fs : FileSystem Dir
  dir : Dir
  /-- How deep ini files may include one another. -/
  includeDepth : ℕ
  host : Host
  sourceTree : UnionDir
  /-- `Module::Parse`, on a new module: `some none` if it fails, `none` where the program exits. -/
  parseModule : Text → Option (Option ParsedModule)

/-- The name of the root module of a model. -/
def rootName (modelIni : GroupMap) : Text := get modelIni "Model".toList "model".toList []

namespace Sources
variable {Dir : Type} (src : Sources Dir)

/-- The `IniFile` of a model file; the program exits if it cannot be read. -/
def modelIni (modelFileName : Text) : Option GroupMap := do
  let fullName ← src.sourceTree.fullName src.host modelFileName
  let (groupMap, _) ← Cxx.parse src.fs src.includeDepth src.dir fullName ∅
  return groupMap

/-- The version and the name in a configuration against the name of its file. -/
def acceptsConfig (modelIni : GroupMap) (modelFileName : Text) : Bool :=
  let version := get modelIni "Global".toList "Version".toList "unspecified".toList
  version ≠ "1.0".toList ∧ version.head? = some '2' ∧
    get modelIni "Global".toList "File".toList [] = (fileTail modelFileName).rdrop 4

/-- `Model::Parse`: `some none` if it fails, `none` where the program exits. -/
def parseModel (parseModuleInstance : GroupMap → Text → Option (Option Instance))
    (modelFileName : Text) : Option (Option ParsedModel) :=
  if ".apm".toList <:+ modelFileName then do
    let directory ← src.sourceTree.isDirectory src.host modelFileName
    if directory then return none
    else
      let fullName ← src.sourceTree.fullName src.host modelFileName
      let modelIni ← src.modelIni modelFileName
      if acceptsConfig modelIni modelFileName then
        let saveAllParams ← stringToBool
          (get modelIni "Global".toList "SaveParameters".toList "TRUE".toList)
        let rootModule ← parseModuleInstance modelIni (rootName modelIni)
        return some
          { fileName := fileRoot (fileTail modelFileName)
            configFile := fullName
            name := get modelIni "Global".toList "Name".toList []
            desc := get modelIni "Global".toList "Description".toList []
            defaultAttributeList := (splitString " \t".toList
              (get modelIni "Model".toList "DefaultAttributes".toList [])).filter (· ≠ [])
            saveAllParams, rootModule }
      else return none
  else some none

/-- The body of the loop over the required types: what goes into the place for one of them. -/
def parseSubModule (parseModuleInstance : GroupMap → Text → Option (Option Instance))
    (modelIni : GroupMap) (moduleName requiresType : Text) : Option (Option Instance) :=
  let requiresName := get modelIni (requiresGroup moduleName) requiresType []
  if requiresName = [] then some none
  else (parseModuleInstance modelIni requiresName).map fun subModule =>
    subModule.filter fun t => t.label.module.provides = requiresType

/-- `Model::ParseModuleInstance`: `some none` for NULL, `none` where the program exits or the fuel
does not suffice. -/
def parseModuleInstance : ℕ → GroupMap → Text → Option (Option Instance)
  | 0, _, _ => none
  | n + 1, modelIni, moduleName =>
    let moduleFileName := get modelIni moduleName "File".toList []
    if isModelFile moduleFileName then
      (src.parseModel (parseModuleInstance n) moduleFileName).map fun submodel =>
        submodel.bind (·.rootModule)
    else
      (src.parseModule moduleFileName).bind fun
        | none => some none
        | some module =>
          match (module.paramList.map .new).mapM (updateParam modelIni moduleName) with
          | none => some none
          | some paramInstanceList =>
            (module.requiresList.mapM
              (parseSubModule (parseModuleInstance n) modelIni moduleName)).map fun subModules =>
                some (.node ⟨module, paramInstanceList⟩ subModules)

/-- `Model::Parse` with its recursion. -/
def parse (n : ℕ) (modelFileName : Text) : Option (Option ParsedModel) :=
  src.parseModel (src.parseModuleInstance n) modelFileName

end Sources

end Awb.Apm
