import Awb.Builder.ShortName

/-! The paths of the build tree, and what the passes over the model do: they write and copy files
and collect information for the makefiles. -/

namespace Awb

inductive ExportType where
  | source
  | doxygen
  | raw
  | publicHeader
  | synthesized
  | restricted
  | base
  deriving DecidableEq, Repr

inductive ResultPath where
  | sourceFile
  | destFile
  | destFileRel
  deriving DecidableEq, Repr

/-- The builder and what it runs on. -/
structure Session where
  host : Host
  disk : Disk
  workspace : Workspace
  buildDir : Text
  persistConfigureOpt : Bool

namespace Session

variable (σ : Session)

def fullName (fileName : Text) : Option Text := σ.workspace.sourceTree.fullName σ.host fileName

def destDirRel (moduleDir : Text) : ExportType → Text
  | .source | .doxygen | .raw => fileJoin Workspace.relBuildSourceDir moduleDir
  | .publicHeader => Workspace.relBuildIncludeDir
  | .synthesized => fileJoin Workspace.relBuildIncludeDir "asim/provides".toList
  | .restricted => fileJoin Workspace.relBuildIncludeDir "asim/restricted".toList
  | .base => fileJoin Workspace.relBuildIncludeDir "asim".toList

def destFileRel (moduleDir fileName : Text) (exportType : ExportType) : Text :=
  fileJoin (destDirRel moduleDir exportType) fileName

def destFile (moduleDir fileName : Text) (exportType : ExportType) : Text :=
  fileJoin σ.buildDir (destFileRel moduleDir fileName exportType)

/-- `MakePath`, which looks the source up whatever path it is to return. -/
def makePath (resultPath : ResultPath) (sourceDir moduleDir fileName : Text)
    (exportType : ExportType) : Option Text := do
  let sourceFile ← σ.fullName (fileJoin sourceDir fileName)
  return match resultPath with
    | .sourceFile => sourceFile
    | .destFile => σ.destFile moduleDir fileName exportType
    | .destFileRel => destFileRel moduleDir fileName exportType

/-- `CopyFileToBuildTree`: whether there was something to copy. -/
def copyFileToBuildTree (sourceFileName destFileName : Text) : Option Bool := do
  guard (σ.disk.makeDir (fileHead destFileName))
  let full ← σ.fullName sourceFileName
  return σ.host.fileExists full &&
    -- only with persistent copies a directory is walked through
    (!(σ.persistConfigureOpt && σ.host.isDirectory full) || σ.host.openDir full)

end Session

/-- What is collected for the makefiles. -/
structure Makefile where
  srcs : List Text := []
  objs : List Text := []
  vpath : List Text := []
  incs : List Text := []
  incDirs : List Text := []
  subDirs : List Text := []
  subTargets : List Text := []
  localLibs : List Text := []
  localIncs : List Text := []
  commonLibs : List Text := []
  replace : List (Text × Text) := []
  deriving DecidableEq, Repr

namespace Makefile

/-- `clear`; two of the lists are not in it. -/
def clear (m : Makefile) : Makefile :=
  { subDirs := m.subDirs, subTargets := m.subTargets }

def addReplacement (m : Makefile) (name value : Text) : Makefile :=
  { m with replace := (name, value) :: m.replace.filter fun r => r.1 ≠ name }

end Makefile

def appendUnique (container : List Text) (newValue : Text) : List Text :=
  if container.contains newValue then container else container ++ [newValue]

/-- One thing that a pass does to the build tree or to the builder. -/
inductive Action where
  | writeFile (fileName text : Text)
  | copy (source dest : Text)
  | srcs (value : Text)
  | objs (value : Text)
  | vpath (value : Text)
  | incs (value : Text)
  | incDirs (value : Text)
  | localLibs (value : Text)
  | localIncs (value : Text)
  | commonLibs (value : Text)
  | dynamicParam (p : ModParamInstance)
  deriving DecidableEq, Repr

/-- The state of a `ModelBuilder`. -/
structure Builder where
  makefile : Makefile := {}
  dynamicParams : List ModParamInstance := []
  deriving DecidableEq, Repr

namespace Builder

/-- What an action does to the members of the builder. -/
def perform (b : Builder) : Action → Builder
  | .writeFile _ _ | .copy _ _ => b
  | .srcs v => { b with makefile.srcs := b.makefile.srcs ++ [v] }
  | .objs v => { b with makefile.objs := b.makefile.objs ++ [v] }
  | .vpath v => { b with makefile.vpath := appendUnique b.makefile.vpath v }
  | .incs v => { b with makefile.incs := b.makefile.incs ++ [v] }
  | .incDirs v => { b with makefile.incDirs := appendUnique b.makefile.incDirs v }
  | .localLibs v => { b with makefile.localLibs := appendUnique b.makefile.localLibs v }
  | .localIncs v => { b with makefile.localIncs := appendUnique b.makefile.localIncs v }
  | .commonLibs v => { b with makefile.commonLibs := appendUnique b.makefile.commonLibs v }
  | .dynamicParam p => { b with dynamicParams := b.dynamicParams ++ [p] }

def performAll (b : Builder) (actions : List Action) : Builder := actions.foldl perform b

/-- The members have what an action puts there. -/
def Has (b : Builder) : Action → Prop
  | .writeFile _ _ | .copy _ _ => True
  | .srcs v => v ∈ b.makefile.srcs
  | .objs v => v ∈ b.makefile.objs
  | .vpath v => v ∈ b.makefile.vpath
  | .incs v => v ∈ b.makefile.incs
  | .incDirs v => v ∈ b.makefile.incDirs
  | .localLibs v => v ∈ b.makefile.localLibs
  | .localIncs v => v ∈ b.makefile.localIncs
  | .commonLibs v => v ∈ b.makefile.commonLibs
  | .dynamicParam p => p ∈ b.dynamicParams

@[simp] theorem performAll_nil (b : Builder) : b.performAll [] = b := rfl

@[simp] theorem performAll_cons (b : Builder) (x : Action) (actions : List Action) :
    b.performAll (x :: actions) = (b.perform x).performAll actions := rfl

@[simp] theorem performAll_append (b : Builder) (xs ys : List Action) :
    b.performAll (xs ++ ys) = (b.performAll xs).performAll ys :=
  List.foldl_append ..

theorem mem_appendUnique {container : List Text} {v w : Text} :
    v ∈ appendUnique container w ↔ v ∈ container ∨ v = w := by
  unfold appendUnique
  split
  · rename_i hmem
    have hmem : w ∈ container := by simpa using hmem
    constructor
    · exact Or.inl
    · rintro (h | rfl) <;> assumption
  · simp

theorem perform_has (b : Builder) (x : Action) : (b.perform x).Has x := by
  cases x <;> simp [perform, Has, mem_appendUnique]

/-- Nothing is ever taken out again. -/
theorem has_perform {b : Builder} {x : Action} (h : b.Has x) (y : Action) :
    (b.perform y).Has x := by
  cases y <;> cases x <;> simp_all [perform, Has, mem_appendUnique]

theorem has_performAll {b : Builder} {x : Action} (h : b.Has x) (actions : List Action) :
    (b.performAll actions).Has x := by
  induction actions generalizing b with
  | nil => exact h
  | cons y actions ih => exact ih (has_perform h y)

/-- What a pass did is in the members afterwards. -/
theorem performAll_has {x : Action} {actions : List Action} (h : x ∈ actions) (b : Builder) :
    (b.performAll actions).Has x := by
  obtain ⟨before, after, rfl⟩ := List.append_of_mem h
  rw [performAll_append, performAll_cons]
  exact has_performAll (perform_has _ x) after

/-- The dynamic parameters that actions append. -/
def appendedParam : Action → Option ModParamInstance
  | .dynamicParam p => some p
  | _ => none

theorem dynamicParams_performAll (b : Builder) (actions : List Action) :
    (b.performAll actions).dynamicParams =
      b.dynamicParams ++ actions.filterMap appendedParam := by
  induction actions generalizing b with
  | nil => simp
  | cons x actions ih =>
    rw [performAll_cons, ih]
    cases x <;> simp [perform, appendedParam, List.filterMap_cons]

end Builder

end Awb
