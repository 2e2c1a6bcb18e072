import Awb.Builder.BuildTree

/-! The passes of `CreateBuildTree` before and after the one over the modules: the files of the base
directory, the generated sources, and the makefiles with their replacement values. -/

namespace Awb

/-- What a configuration writes: a generated file, or a makefile with the replacement values that
its template is filled with. -/
inductive Output where
  | file (fileName text : Text)
  | makefile (template fileName : Text) (replace : List (Text × Text))
  deriving DecidableEq, Repr

section sources

/-- The definition of a dynamic parameter. -/
def paramDefinition (p : ModParamInstance) : Text :=
  if p.param.isString then
    "string ".toList ++ p.param.name ++ " = ".toList ++ quoted p.value ++ [';']
  else "UINT64 ".toList ++ p.param.name ++ " = ".toList ++ p.value ++ [';']

/-- The branch of `SetParam` for a parameter. -/
def setParamLines (ifString : String) (p : ModParamInstance) : List Text :=
  ["    ".toList ++ ifString.toList ++ " (strcmp(name, ".toList ++ quoted p.param.name ++
      ") == 0) \x7b".toList,
    "        ".toList ++ p.param.name ++
      (if p.param.isString then " = value;" else " = atoi_general(value);").toList,
    "    \x7d".toList]

/-- The line of `ListParams` for a parameter, with quotes around a string. -/
def listParamLine (p : ModParamInstance) : Text :=
  "    cout << \"    ".toList ++ p.param.name ++ "\" << \" = \" << ".toList ++
    (if p.param.isString then "\"\\\"\" << " else "").toList ++ p.param.name ++
    (if p.param.isString then " << \"\\\"\" " else "").toList ++ " << endl;".toList

def paramFileText (dynamicParams : List ModParamInstance) : Text :=
  let setParams := match dynamicParams with
    | [] => []
    | p :: ps => setParamLines "if" p ++ ps.flatMap (setParamLines "else if")
  let ifString := if dynamicParams = [] then "if" else "else if"
  unlines <|
    ["/**************************************************".toList,
     " * This source file is automatically generated".toList,
     " * by ModelBuilder for defining all parameters.".toList,
     " *************************************************/".toList, [],
     "#include \"asim/param.h\"".toList, "#include \"asim/atoi.h\"".toList, []] ++
    dynamicParams.map paramDefinition ++
    [[], [], "bool SetParam (char * name, char * value)".toList, "\x7b".toList,
     "    bool found = true;".toList] ++ setParams ++
    ["    ".toList ++ ifString.toList ++ " (1) \x7b".toList, "        found = false;".toList,
     "    \x7d".toList, "    return found;".toList, "\x7d".toList, [], [],
     "void ListParams (void)".toList, "\x7b".toList] ++
    (if dynamicParams = [] then
      ["    cout << \"There are no dynamic parameters registered!\" << endl;".toList]
    else
      "    cout << \"The following dynamic parameters are registered:\" << endl;".toList ::
        dynamicParams.map listParamLine) ++
    ["\x7d".toList]

/-- The registration of a parameter; a dynamic one is a variable of the simulator. -/
def simConfigParamLines (p : ModParamInstance) : List Text :=
  let type := (if p.param.isString then "string" else "UINT64").toList
  let name := p.param.name
  if p.param.isDynamic then
    ["Declare(extern ".toList ++ type ++ ' ' :: name ++ [')'],
     "RegisterDyn(\"Param_".toList ++ name ++ "\",\"(dynamic) parameter ".toList ++ name ++
       "\",".toList ++ type ++ ',' :: name ++ [')']]
  else
    ["Register(\"Param_".toList ++ name ++ "\",\"parameter ".toList ++ name ++ "\",".toList ++
       type ++ ",param_".toList ++ name ++ ',' ::
       (if p.param.isString then quoted p.value else p.value) ++ [')']]

def simConfigModuleLines (t : ModuleInstance) : List Text :=
  ("Register(\"Module_".toList ++ t.label.provides ++ "\",\"provides ".toList ++
      t.label.provides ++ " (".toList ++ t.label.module.name ++ ")\",UINT64,module_".toList ++
      t.label.provides ++ ", true)".toList) ::
    t.label.params.flatMap simConfigParamLines

/-- The modules in the order of `CreateSimConfigForModule`, the root first. -/
def simConfigText (rootModule : ModuleInstance) : Text :=
  unlines <|
    ["//".toList, "// automatically generated file - DO NOT EDIT".toList, "//".toList] ++
      rootModule.nodes.flatMap simConfigModuleLines

end sources

/-- `MakefileString`. -/
def makefileString (stringList : List Text) : Text :=
  stringLineWrap (stringTrim (stringList.flatMap (· ++ [' ']))) 74 ['\\'] [' ', ' '] true

/-- One thing that the recursion over the sub-makefiles does. -/
inductive MakefileStep where
  | subDir (value : Text)
  | subTarget (value : Text)
  | replacement (name value : Text)
  | substitute (template fileName : Text)
  deriving DecidableEq, Repr

namespace Makefile

def step (m : Makefile) : MakefileStep → Makefile
  | .subDir v => { m with subDirs := m.subDirs ++ [v] }
  | .subTarget v => { m with subTargets := m.subTargets ++ [v] }
  | .replacement name value => m.addReplacement name value
  | .substitute _ _ => m

/-- The makefile that a step writes. -/
def written (m : Makefile) : MakefileStep → Option Output
  | .substitute template fileName => some (.makefile template fileName m.replace)
  | _ => none

/-- The steps one after the other, and the makefiles they write. -/
def run (m : Makefile) : List MakefileStep → Makefile × List Output
  | [] => (m, [])
  | s :: steps =>
    let rest := (m.step s).run steps
    (rest.1, (m.written s).toList ++ rest.2)

def addReplacements (m : Makefile) (values : List (Text × Text)) : Makefile :=
  values.foldl (fun m v => m.addReplacement v.1 v.2) m

end Makefile

/-- The second name of the root's `%makefile`. -/
def makefileConfig (rootModule : Module) : Text :=
  rootModule.makefileList.getD 1 "Makefile.config".toList

namespace Session

variable (σ : Session)

/-- How a file of the base directory is exported; others are left alone. -/
def baseExportType (fileName : Text) : Option ExportType :=
  if hasExtension includeExtension fileName then some .base
  else if hasExtension sourceExtension fileName then some .source
  else if hasExtension doxygenExtension fileName then some .doxygen
  else if hasExtension rawExtension fileName then some .raw
  else none

def copyBaseFile (name : Text) : Option (List Action) :=
  let fileName := fileTail name
  match baseExportType fileName with
  | none => some []
  | some exportType => do
    let base := "base".toList
    let sourceFileName ← σ.makePath .sourceFile base base fileName exportType
    if sourceFileName = [] then
      return []
    let destFileName ← σ.makePath .destFile base base fileName exportType
    let destRelFileName ← σ.makePath .destFileRel base base fileName exportType
    let success ← σ.copyFileToBuildTree sourceFileName destFileName
    if !success then
      return []
    return .copy sourceFileName destFileName :: fileActions destRelFileName exportType

/-- `CreateBuildTreeForBase`. -/
def createBuildTreeForBase : Option (List Action) :=
  gather σ.copyBaseFile
    (σ.workspace.sourceTree.glob σ.host (fileJoin Workspace.relSourceBaseDir ['*']))

/-- A generated file in the build tree. -/
def writeGenerated (moduleDir fileName : Text) (exportType : ExportType) (sourceDir text : Text) :
    Option Output := do
  let name ← σ.makePath .destFile sourceDir moduleDir fileName exportType
  guard (σ.disk.makeDir (fileHead name))
  guard (σ.disk.openOut name)
  return .file name text

def createDynamicParams (dynamicParams : List ModParamInstance) : Option Output :=
  σ.writeGenerated "base".toList "param.cpp".toList .source "base".toList
    (paramFileText dynamicParams)

def createSimConfig (rootModule : ModuleInstance) : Option Output :=
  σ.writeGenerated [] "sim_config.h".toList .synthesized [] (simConfigText rootModule)

/-- `FileCopy`, which exits if one of the files cannot be opened. -/
def fileCopy (source dest : Text) : Option Unit := do
  guard (σ.host.openIn source)
  guard (σ.disk.openOut
    (if σ.disk.isDirectory dest then fileJoin dest (fileTail source) else dest))

/-- `SubstitutePlaceholders` exits if one of the files cannot be opened. -/
def substitutePlaceholders (template fileName : Text) : Option MakefileStep := do
  guard (σ.host.openIn template)
  guard (σ.disk.openOut fileName)
  return .substitute template fileName

/-- The makefile of one module, in `CreateSubMakefiles`. -/
def createSubMakefile (rootModule m : Module) (moduleShortPath makefile : Text) :
    Option (List MakefileStep) := do
  let sourceDir := fileDirName m.fullFileName
  let destDir ← σ.makePath .destFile m.location moduleShortPath "src".toList .source
  -- a failure to copy is only a warning
  let _ ← σ.copyFileToBuildTree sourceDir destDir
  let sourceFileName ← σ.makePath .sourceFile m.location moduleShortPath makefile .source
  let name := "Makefile".toList
  let destRelFileName ← σ.makePath .destFileRel m.location moduleShortPath name .source
  let destRelDirName := fileHead destRelFileName
  let destFileName ← σ.makePath .destFile m.location moduleShortPath name .source
  let includeName ← σ.makePath .destFileRel [] [] "foo".toList .publicHeader
  let buildRelDir := fileRelativePath (fileHead destFileName) σ.buildDir
  let substitution ← σ.substitutePlaceholders sourceFileName destFileName
  let modTargets := m.targetList.foldl
    (fun targets target => if targets = [] then target else targets ++ ' ' :: target) []
  return .subDir destRelDirName :: m.targetList.map (.subTarget <| fileJoin destRelDirName ·) ++
    [.replacement "BUILDROOT".toList buildRelDir,
     .replacement "INCDIRS".toList ("-I".toList ++ fileJoin buildRelDir (fileHead includeName)),
     .replacement "MAKEFILECONFIG".toList (fileJoin buildRelDir (makefileConfig rootModule)),
     .replacement "TARGET".toList modTargets,
     substitution]

/-- The makefile of a module that has one; that of the root is handled elsewhere. -/
def createOwnMakefile (rootModule : Module) (place : Place) (m : Module) :
    Option (List MakefileStep) :=
  match m.makefileList with
  | [] => some []
  | makefile :: _ =>
    if place.modulePath = "system".toList then some []
    else σ.createSubMakefile rootModule m place.moduleShortPath makefile

mutual

/-- `CreateSubMakefiles`. -/
def createSubMakefiles (rootModule : Module) (place : Place) :
    ModuleInstance → Option (List MakefileStep)
  | .node a subs => do
    let here ← σ.createOwnMakefile rootModule place a.module
    let below ← createSubMakefilesBelow rootModule place a subs
    return here ++ below

def createSubMakefilesBelow (rootModule : Module) (place : Place) (a : Instance) :
    List (Option ModuleInstance) → Option (List MakefileStep)
  | [] => some []
  | none :: _ => none
  | some t :: subs => do
    let here ← createSubMakefiles rootModule (place.sub a t.label) t
    let rest ← createSubMakefilesBelow rootModule place a subs
    return here ++ rest

end

def flag (value : Bool) : Text := if value then ['1'] else ['0']

/-- The replacement values for all makefiles. -/
def commonReplacements (model : Model) (m : Makefile) : List (Text × Text) :=
  let f := σ.workspace.buildEnvFlag
  [("PmName".toList, model.name), ("PmDesc".toList, model.desc), ("ASIM".toList, flag true),
   ("GNU".toList, flag (f .gnu)), ("OPT".toList, flag (f .optimize)),
   ("DEBUG".toList, flag (f .debug)), ("WARN".toList, flag (f .warn)),
   ("STATIC".toList, flag (f .static)), ("PAR".toList, flag (f .parallel)),
   ("INCS".toList, makefileString m.incs), ("SRCS".toList, makefileString m.srcs),
   ("OBJS".toList, makefileString m.objs), ("LOCAL_LFLAGS".toList, makefileString m.localLibs),
   ("LOCAL_CFLAGS".toList, makefileString m.localIncs),
   ("COMMON_LFLAGS".toList, makefileString m.commonLibs),
   ("VPATH".toList, makefileString m.vpath), ("BUILDABSROOT".toList, σ.buildDir)]

/-- The replacement values for the top-level makefile, set again after the sub-makefiles. -/
def topReplacements (model : Model) (rootModule : Module) (relIncDir : Text) (m : Makefile) :
    List (Text × Text) :=
  [("BUILDROOT".toList, []), ("INCDIRS".toList, relIncDir),
   ("SUBDIRS".toList, makefileString m.subDirs),
   ("SUBTARGETS".toList, makefileString m.subTargets),
   ("MAKEFILECONFIG".toList, makefileConfig rootModule),
   ("TARGET".toList, rootModule.targetList.headD model.fileName)]

/-- The source of the top-level makefile. -/
def makefileSource (rootModule : Module) : Option Text :=
  match rootModule.makefileList with
  | [] => some (fileJoin Workspace.relSourceModelDir "Makefile.template".toList)
  | makefile :: _ => do
    let name ← σ.makePath .sourceFile rootModule.location "system".toList makefile .source
    guard (name ≠ [])
    return name

/-- The other files of the root's `%makefile`, copied into the build directory. -/
def copyMakefileArguments (rootModule : Module) : Option Unit :=
  (rootModule.makefileList.drop 2).forM fun name =>
    -- do not overwrite the template
    if name = "Makefile".toList then some ()
    else do
      let source ← σ.fullName (fileJoin Workspace.relSourceModelDir name)
      σ.fileCopy source σ.buildDir

/-- `CreateMakefiles`. -/
def createMakefiles (model : Model) (root : ModuleInstance) (m : Makefile) :
    Option (Makefile × List Output) := do
  let rootModule := root.label.module
  let includeName ← σ.makePath .destFileRel [] [] "foo".toList .publicHeader
  let relIncDir := "-I".toList ++ fileHead includeName
  let m := m.addReplacements (σ.commonReplacements model m)
  σ.copyMakefileArguments rootModule
  let steps ← σ.createSubMakefiles rootModule Place.root root
  let (m, written) := m.run steps
  let config := makefileConfig rootModule
  let configName ← σ.makePath .sourceFile rootModule.location "system".toList config .source
  guard (configName ≠ [])
  let configSource ← σ.fullName (fileJoin rootModule.location config)
  σ.fileCopy configSource σ.buildDir
  let source ← σ.makefileSource rootModule
  let template ← σ.fullName source
  let m := m.addReplacements (topReplacements model rootModule relIncDir m)
  let substitution ← σ.substitutePlaceholders template (fileJoin σ.buildDir "Makefile".toList)
  let (m, top) := m.run [substitution]
  return (m, written ++ top)

/-- `CreateConscripts`: the files of the root's `%conscript`. -/
def createConscripts (rootModule : Module) : Option Unit := do
  (rootModule.conscriptList.drop 1).forM fun name => do
    let source ← σ.fullName (fileJoin Workspace.relSourceModelDir name)
    σ.fileCopy source σ.buildDir
  match rootModule.conscriptList with
  | [] => some ()
  | conscript :: _ => do
    let name ← σ.makePath .sourceFile rootModule.location "system".toList conscript .source
    guard (name ≠ [])
    let full ← σ.fullName name
    σ.fileCopy full σ.buildDir

/-- `CreateBuildTree`: the builder afterwards, and what was written. -/
def createBuildTree (model : Model) (b : Builder) : Option (Builder × List Output) := do
  let b : Builder := { makefile := b.makefile.clear }
  let baseActions ← σ.createBuildTreeForBase
  let b := b.performAll baseActions
  let entries ← σ.createBuildTreeForModel model
  let b := b.performAll (entries.map fun e => e.2)
  let params ← σ.createDynamicParams b.dynamicParams
  let root ← model.rootModule
  let simConfig ← σ.createSimConfig root
  let (m, makefiles) ← σ.createMakefiles model root b.makefile
  σ.createConscripts root.label.module
  return ({ b with makefile := m }, params :: simConfig :: makefiles)

end Session

end Awb
