import Awb.Builder.SourceTree
import Awb.Lib.RoseTree

/-! Modules, their instances in a model, and the check that a model is complete. -/

namespace Awb

inductive Visibility where
  | local
  | subtree
  deriving DecidableEq, Repr

/-- Where a parameter can be bound at the latest. -/
inductive Mutability where
  | module
  | model
  | startup
  | runtime
  deriving DecidableEq, Repr

structure ModParam where
  name : Text
  type : Text
  visibility : Visibility
  mutability : Mutability
  deriving DecidableEq, Repr

namespace ModParam

def isDynamic (p : ModParam) : Bool := p.mutability = .startup || p.mutability = .runtime

def isString (p : ModParam) : Bool := p.type = "string".toList

end ModParam

/-- A parameter of one module instance; the number stands for its address. -/
structure ModParamInstance where
  id : Nat
  param : ModParam
  value : Text
  deriving DecidableEq, Repr

/-- The abstract module of a configuration file. -/
structure Module where
  name : Text
  provides : Text
  requiresList : List Text := []
  location : Text := []
  publicFileList : List Text := []
  privateFileList : List Text := []
  libraryFileList : List Text := []
  includeFileList : List Text := []
  includeOptionsList : List Text := []
  sysIncludeFileList : List Text := []
  sysLibraryFileList : List Text := []
  fullFileName : Text := []
  makefileList : List Text := []
  conscriptList : List Text := []
  targetList : List Text := []
  desc : Text := []
  attributeList : List Text := []
  deriving DecidableEq, Repr

def Module.hasAttribute (m : Module) (attr : Text) : Bool :=
  m.attributeList.contains attr

/-- A module instance without its submodules; the number stands for its address. -/
structure Instance where
  id : Nat
  module : Module
  params : List ModParamInstance := []
  deriving DecidableEq, Repr

namespace Instance

def provides (a : Instance) : Text := a.module.provides

def dynamicParams (a : Instance) : List ModParamInstance :=
  a.params.filter fun p => p.param.isDynamic

end Instance

/-- A module instance with the places of its submodules. -/
abbrev ModuleInstance := RoseTree Instance

namespace ModuleInstance

mutual

/-- `IsComplete(true)`. -/
def isComplete : ModuleInstance → Bool
  | .node a subs => a.module.requiresList.length = subs.length &&
      subModulesComplete a.module.requiresList subs

/-- The places against the requires types, in order. -/
def subModulesComplete : List Text → List (Option ModuleInstance) → Bool
  | r :: requires, some t :: subs =>
      decide (r = t.label.provides) && isComplete t && subModulesComplete requires subs
  | [], some _ :: _ => false
  | _, none :: _ => false
  | _, [] => true

end

end ModuleInstance

/-- A model; all objects of its tree are different. -/
structure Model where
  name : Text
  desc : Text
  fileName : Text
  rootModule : Option ModuleInstance
  ids_nodup : ∀ t ∈ rootModule, (t.nodes.map fun s => s.label.id).Nodup
  params_nodup : ∀ t ∈ rootModule,
    (t.nodes.flatMap fun s => s.label.params.map fun p => p.id).Nodup

inductive BuildEnvFlag where
  | gnu
  | optimize
  | debug
  | warn
  | static
  | parallel
  deriving DecidableEq, Repr

/-- What the builder uses of the workspace. -/
structure Workspace where
  sourceTree : UnionDir
  buildEnvFlag : BuildEnvFlag → Bool

namespace Workspace

def relSourceBaseDir : Text := "base".toList

def relSourceModelDir : Text := "pm".toList

def relBuildSourceDir : Text := "src".toList

def relBuildIncludeDir : Text := fileJoin relBuildSourceDir "include".toList

end Workspace

end Awb
