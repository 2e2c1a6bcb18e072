import Awb.Builder.Actions
import Awb.Lib.Gather

/-! `CreateBuildTreeForModel`: the pass over the module tree that writes the module headers, copies
the files and collects what the later passes need. Each action is recorded with the number of the
module instance it is done for; `none` stands for a failure and for an exit of the program. -/

namespace Awb

section header

def quoted (str : Text) : Text := '"' :: str ++ ['"']

/-- The declaration of a parameter that is set at run time. -/
def externLine (p : ModParam) : Text :=
  (if p.isString then "extern string " else "extern UINT64 ").toList ++ p.name ++ [';']

def defineLine (name value : Text) : Text := "#define ".toList ++ name ++ ' ' :: value

/-- A parameter of an ancestor, in the header. -/
def inheritedParamLines (p : ModParamInstance) : List Text :=
  if p.param.isDynamic then [externLine p.param]
  else ["#ifndef ".toList ++ p.param.name,
    defineLine p.param.name (if p.param.isString then quoted p.value else p.value),
    "#endif".toList]

/-- A parameter of the module itself, in the header. -/
def ownParamLines (p : ModParamInstance) : List Text :=
  if p.param.isDynamic then [externLine p.param]
  else [defineLine p.param.name (if p.param.isString then quoted p.value else p.value),
    defineLine (p.param.name ++ "__STR".toList) (quoted p.value)]

/-- The header of a module, from the names of its public files as seen from there. -/
def headerText (a : Instance) (inheritedParams : List ModParamInstance) (includes : List Text) :
    Text :=
  let guardName := "_ASIM_".toList ++ stringToUpper a.provides ++ ['_']
  unlines <|
    ["/**************************************************".toList,
     " * This header file is automatically generated".toList,
     " * by ModelBuilder for module ".toList ++ quoted a.module.name,
     " * from file ".toList ++ quoted a.module.fullFileName,
     " *************************************************/".toList, [],
     "#include <string>".toList, "#include \"asim/syntax.h\"".toList,
     "#include \"asim/atoi.h\"".toList, [], "using std::string;".toList, [],
     "#ifndef ".toList ++ guardName, "#define ".toList ++ guardName, []] ++
    inheritedParams.flatMap inheritedParamLines ++ a.params.flatMap ownParamLines ++
    includes.map (fun name => "#include ".toList ++ quoted name) ++
    [[], "#endif // ".toList ++ guardName]

end header

inductive FileKind where
  | export (type : ExportType)
  | config
  | unknown
  deriving DecidableEq, Repr

def hasExtension (extensions : List String) (fileName : Text) : Bool :=
  extensions.any fun e => ('.' :: e.toList).isSuffixOf fileName

def includeExtension : List String := ["h", "H", "hh", "hpp", "hxx", "def"]

def sourceExtension : List String := ["c", "C", "cc", "cpp", "cxx"]

def configExtension : List String := ["pack"]

def doxygenExtension : List String := ["dox", "doxy"]

def rawExtension : List String := ["tcl", "cfg", "r"]

/-- How a file of a module is exported, by its extension. -/
def fileKind (fileName : Text) : FileKind :=
  if hasExtension includeExtension fileName then .export .restricted
  else if hasExtension sourceExtension fileName then .export .source
  else if hasExtension configExtension fileName then .config
  else if hasExtension doxygenExtension fileName then .export .doxygen
  else if hasExtension rawExtension fileName then .export .raw
  else .unknown

/-- What is collected about a copied file. -/
def fileActions (destRelFileName : Text) : ExportType → List Action
  | .source => [.srcs destRelFileName,
      .objs (fileRoot (fileTail destRelFileName) ++ ".o".toList),
      .vpath (fileHead destRelFileName)]
  | .doxygen | .raw => []
  | _ => [.incs destRelFileName, .incDirs ("-I".toList ++ fileHead destRelFileName)]

/-- The position of the first occurrence. -/
def findText (pattern : Text) : Text → Option Nat
  | [] => if pattern = [] then some 0 else none
  | c :: str =>
    if pattern.isPrefixOf (c :: str) then some 0 else (findText pattern str).map (· + 1)

/-- The name of a library that the linker knows. -/
def libName (libFileName : Text) : Text :=
  let fileName := fileRoot (fileTail libFileName)
  match findText "lib".toList fileName with
  | none => fileName
  | some separator =>
    if fileName.length = separator + 1 then fileName else fileName.drop (separator + 3)

namespace Session

variable (σ : Session)

def headerFileName (a : Instance) : Text :=
  σ.destFile [] (a.provides ++ ".h".toList) .synthesized

/-- `CreateModuleHeader`. -/
def createModuleHeader (a : Instance) (inheritedParams : List ModParamInstance) :
    Option (List Action) := do
  let headerFileName ← σ.makePath .destFile [] [] (a.provides ++ ".h".toList) .synthesized
  guard (σ.disk.makeDir (fileHead headerFileName))
  guard (σ.disk.openOut headerFileName)
  let includes ← a.module.publicFileList.mapM fun name => do
    let includeFileName ← σ.makePath .destFile [] [] (fileTail name) .restricted
    return fileRelativePath (fileHead headerFileName) includeFileName
  return .writeFile headerFileName (headerText a inheritedParams includes) ::
    a.dynamicParams.map .dynamicParam

/-- A listed file that is to be exported. -/
def copyModuleFile (m : Module) (moduleShortPath fileName : Text) (exportType : ExportType) :
    Option (List Action) := do
  let sourceFileName ← σ.makePath .sourceFile m.location moduleShortPath fileName exportType
  if sourceFileName = [] then
    return []
  let tail := fileTail fileName
  let destFileName ← σ.makePath .destFile m.location moduleShortPath tail exportType
  let destRelFileName ← σ.makePath .destFileRel m.location moduleShortPath tail exportType
  let success ← σ.copyFileToBuildTree sourceFileName destFileName
  if !success then
    return []
  -- a header goes to the directory of the module, too
  if exportType = .restricted then
    let secondDestFileName ← σ.makePath .destFile m.location moduleShortPath tail .source
    let success ← σ.copyFileToBuildTree sourceFileName secondDestFileName
    if !success then
      return [.copy sourceFileName destFileName]
    return .copy sourceFileName destFileName :: .copy sourceFileName secondDestFileName ::
      fileActions destRelFileName exportType
  return .copy sourceFileName destFileName :: fileActions destRelFileName exportType

/-- The loop over the listed files, and whether it returns from the whole function. -/
def copyModuleFiles (m : Module) (moduleShortPath : Text) :
    List Text → Option (List Action × Bool)
  | [] => some ([], false)
  | fileName :: files =>
    match fileKind fileName with
    | .config => some ([], true)
    | .unknown => none
    | .export exportType => do
      let here ← σ.copyModuleFile m moduleShortPath fileName exportType
      let (rest, returned) ← copyModuleFiles m moduleShortPath files
      return (here ++ rest, returned)

def collectLibrary (libFileName : Text) : Option (List Action) := do
  let full ← σ.fullName libFileName
  if full ≠ [] then
    return [.localIncs ("-I".toList ++ fileDirName full ++ "/include".toList), .localLibs full]
  return [.commonLibs ("-l".toList ++ libName libFileName)]

def collectInclude (incFileName : Text) : Option (List Action) := do
  let full ← σ.fullName incFileName
  return if full ≠ [] then [.localIncs ("-I".toList ++ full)] else []

def collectSysInclude (incFileName : Text) : Option (List Action) :=
  some [.localIncs ("-I".toList ++ incFileName)]

/-- An option and its file; the iterator stays at the option if there is no file. -/
def collectIncludeOption (incOption : Text) : Option (List Action) := do
  let split := splitString [' ', '\t'] incOption
  let thisOption := split.getD 0 []
  let full ← σ.fullName (split.getD 1 thisOption)
  return [.localIncs (thisOption ++ ' ' :: full)]

/-- A name that `FullName` gave is that of a directory. -/
def isFoundDirectory (full : Text) : Option Bool :=
  if full = [] then some false else σ.workspace.sourceTree.isDirectory σ.host full

def collectSysLibrary (libFileName : Text) : Option (List Action) := do
  let full ← σ.fullName libFileName
  let directory ← σ.isFoundDirectory full
  if directory then
    return [.localLibs ("-L".toList ++ full)]
  return if libFileName.head? = some '-' then [.localLibs libFileName] else []

/-- The libraries and include options of a module. -/
def collectModule (m : Module) : Option (List Action) := do
  let libraries ← gather σ.collectLibrary m.libraryFileList
  let includes ← gather σ.collectInclude m.includeFileList
  let sysIncludes ← gather collectSysInclude m.sysIncludeFileList
  let includeOptions ← gather σ.collectIncludeOption m.includeOptionsList
  let sysLibraries ← gather σ.collectSysLibrary m.sysLibraryFileList
  return libraries ++ includes ++ sysIncludes ++ includeOptions ++ sysLibraries

end Session

namespace Instance

def files (a : Instance) : List Text := a.module.publicFileList ++ a.module.privateFileList

/-- The parameters that the submodules see, too. -/
def subtreeParams (a : Instance) : List ModParamInstance :=
  a.params.filter fun p => p.param.visibility = .subtree

def tag (a : Instance) (actions : List Action) : List (Nat × Action) :=
  actions.map fun x => (a.id, x)

@[simp] theorem mem_tag {a : Instance} {actions : List Action} {i : Nat} {x : Action} :
    (i, x) ∈ a.tag actions ↔ i = a.id ∧ x ∈ actions := by
  simp only [tag, List.mem_map, Prod.mk.injEq]
  constructor
  · rintro ⟨y, hy, rfl, rfl⟩
    exact ⟨rfl, hy⟩
  · rintro ⟨rfl, hx⟩
    exact ⟨x, hx, rfl, rfl⟩

end Instance

namespace Session

variable (σ : Session)

mutual

/-- `CreateBuildTreeForModule`. -/
def createBuildTreeForModule (place : Place) (inheritedParams : List ModParamInstance) :
    ModuleInstance → Option (List (Nat × Action))
  | .node a subs => do
    let header ← σ.createModuleHeader a inheritedParams
    let (files, returned) ← σ.copyModuleFiles a.module place.moduleShortPath a.files
    if returned then
      return a.tag (header ++ files)
    let collected ← σ.collectModule a.module
    let below ← createSubModules place a (inheritedParams ++ a.subtreeParams) subs
    return a.tag (header ++ files ++ collected) ++ below

def createSubModules (place : Place) (a : Instance) (subModuleParams : List ModParamInstance) :
    List (Option ModuleInstance) → Option (List (Nat × Action))
  | [] => some []
  | none :: _ => none
  | some t :: subs => do
    let here ← createBuildTreeForModule (place.sub a t.label) subModuleParams t
    let rest ← createSubModules place a subModuleParams subs
    return here ++ rest

end

def createBuildTreeForModel (model : Model) : Option (List (Nat × Action)) := do
  let rootModule ← model.rootModule
  guard rootModule.isComplete
  σ.createBuildTreeForModule Place.root [] rootModule

end Session

end Awb
