import Awb.Builder.BuildTree

/-! What `CreateBuildTreeForModel` does for one module: its header, the copies of its listed files,
and what its libraries and include options add. -/

namespace Awb

/-- The entries that are collected from the libraries and include options of a module. -/
def Action.collects : Action → Bool
  | .localLibs _ | .localIncs _ | .commonLibs _ => true
  | _ => false

/-- The files that the loop comes to. -/
def beforePack (files : List Text) : List Text := files.takeWhile fun f => fileKind f ≠ .config

namespace Session

variable (σ : Session)

/-- A file of the source tree, not a directory. -/
def isSourceFile (fileName : Text) : Bool :=
  fileName ≠ [] && σ.host.fileExists fileName && !σ.host.isDirectory fileName

/-- The copies of an exported file: a header is copied twice. -/
def exportedCopies (sourceFileName moduleShortPath fileName : Text) (exportType : ExportType) :
    List (Text × Text) :=
  (sourceFileName, σ.destFile moduleShortPath (fileTail fileName) exportType) ::
    if exportType = .restricted then
      [(sourceFileName, σ.destFile moduleShortPath (fileTail fileName) .source)]
    else []

/-- The copies a listed file has in the build tree, if it exists. -/
def copiesOf (m : Module) (moduleShortPath fileName : Text) : List (Text × Text) :=
  match fileKind fileName, σ.fullName (fileJoin m.location fileName) with
  | .export exportType, some sourceFileName =>
    if σ.isSourceFile sourceFileName then
      σ.exportedCopies sourceFileName moduleShortPath fileName exportType
    else []
  | _, _ => []

/-- No library is named, and no include directory or option that makes a compiler flag. -/
structure NothingToCollect (m : Module) : Prop where
  libraries : m.libraryFileList = []
  includes : ∀ name ∈ m.includeFileList, σ.fullName name = some []
  sysIncludes : m.sysIncludeFileList = []
  includeOptions : m.includeOptionsList = []
  sysLibraries : ∀ name ∈ m.sysLibraryFileList, name.head? ≠ some '-' ∧
    ∃ full, σ.fullName name = some full ∧
      (full ≠ [] → σ.workspace.sourceTree.isDirectory σ.host full = some false)

variable {σ} {a : Instance} {m : Module} {moduleShortPath fileName : Text}
  {exportType : ExportType} {actions : List Action} {inheritedParams : List ModParamInstance}
  {x : Action}

theorem makePath_sourceFile {sourceDir moduleDir path : Text}
    (h : σ.makePath .sourceFile sourceDir moduleDir fileName exportType = some path) :
    σ.fullName (fileJoin sourceDir fileName) = some path := by
  obtain ⟨sourceFile, hfull, heq⟩ := Option.bind_eq_some_iff.mp h
  exact hfull.trans heq

theorem makePath_destFile {sourceDir moduleDir path : Text}
    (h : σ.makePath .destFile sourceDir moduleDir fileName exportType = some path) :
    path = σ.destFile moduleDir fileName exportType := by
  obtain ⟨sourceFile, -, heq⟩ := Option.bind_eq_some_iff.mp h
  exact (Option.some.inj heq).symm

theorem makePath_destFileRel {sourceDir moduleDir path : Text}
    (h : σ.makePath .destFileRel sourceDir moduleDir fileName exportType = some path) :
    path = destFileRel moduleDir fileName exportType := by
  obtain ⟨sourceFile, -, heq⟩ := Option.bind_eq_some_iff.mp h
  exact (Option.some.inj heq).symm

theorem createModuleHeader_eq (h : σ.createModuleHeader a inheritedParams = some actions) :
    ∃ text, actions = .writeFile (σ.headerFileName a) text :: a.dynamicParams.map .dynamicParam := by
  simp only [createModuleHeader, Option.bind_eq_bind, Option.bind_eq_some_iff, Option.pure_def,
    Option.some.injEq] at h
  obtain ⟨name, hname, -, -, -, -, includes, -, rfl⟩ := h
  obtain rfl := makePath_destFile hname
  exact ⟨_, rfl⟩

theorem collects_of_mem_header (h : σ.createModuleHeader a inheritedParams = some actions)
    (hx : x ∈ actions) : x.collects = false := by
  obtain ⟨text, rfl⟩ := createModuleHeader_eq h
  rcases List.mem_cons.mp hx with rfl | hx
  · rfl
  · obtain ⟨q, -, rfl⟩ := List.mem_map.mp hx
    rfl

section files

/-- What `CopyFileToBuildTree` finds out about a source file. -/
def copyable (σ : Session) (sourceFileName : Text) : Bool :=
  σ.host.fileExists sourceFileName &&
    (!(σ.persistConfigureOpt && σ.host.isDirectory sourceFileName) ||
      σ.host.openDir sourceFileName)

theorem copyable_of_isSourceFile {sourceFileName : Text} (h : σ.isSourceFile sourceFileName) :
    σ.copyable sourceFileName := by
  simp only [isSourceFile, Bool.and_eq_true, Bool.not_eq_true'] at h
  simp [copyable, h.1.2, h.2]

theorem copyFileToBuildTree_eq {name sourceFileName destFileName : Text} {success : Bool}
    (hfull : σ.fullName name = some sourceFileName) (hne : sourceFileName ≠ [])
    (h : σ.copyFileToBuildTree sourceFileName destFileName = some success) :
    success = σ.copyable sourceFileName := by
  simp only [copyFileToBuildTree, Option.bind_eq_bind, Option.bind_eq_some_iff, Option.pure_def,
    Option.some.injEq] at h
  obtain ⟨-, -, full, hagain, rfl⟩ := h
  rw [fullName, UnionDir.fullName_of_absolute (UnionDir.fullName_absolute hfull hne)] at hagain
  obtain rfl := Option.some.inj hagain
  rfl

/-- A file that can be copied is, to all its destinations, and everything about it is collected. -/
theorem copyModuleFile_eq (h : σ.copyModuleFile m moduleShortPath fileName exportType =
      some actions) :
    ∃ sourceFileName, σ.fullName (fileJoin m.location fileName) = some sourceFileName ∧
      actions = if sourceFileName ≠ [] ∧ σ.copyable sourceFileName then
          (σ.exportedCopies sourceFileName moduleShortPath fileName exportType).map
              (fun c => .copy c.1 c.2) ++
            fileActions (destFileRel moduleShortPath (fileTail fileName) exportType) exportType
        else [] := by
  simp only [copyModuleFile, Option.bind_eq_bind, Option.bind_eq_some_iff, Option.pure_def] at h
  obtain ⟨sourceFileName, hsource, h⟩ := h
  have hfull := makePath_sourceFile hsource
  refine ⟨sourceFileName, hfull, ?_⟩
  split at h
  · simp_all
  rename_i hne
  simp only [Option.bind_eq_some_iff] at h
  obtain ⟨_, hdest, _, hrel, success, hcopy, h⟩ := h
  obtain rfl := makePath_destFile hdest
  obtain rfl := makePath_destFileRel hrel
  obtain rfl := copyFileToBuildTree_eq hfull hne hcopy
  cases hcan : σ.copyable sourceFileName with
  | false => simp_all
  | true =>
    rw [if_neg (by simp [hcan])] at h
    rw [if_pos ⟨hne, rfl⟩]
    split at h
    · rename_i hres
      subst hres
      simp only [Option.bind_eq_some_iff] at h
      obtain ⟨_, hsecond, success, hagain, h⟩ := h
      obtain rfl := makePath_destFile hsecond
      obtain rfl := copyFileToBuildTree_eq hfull hne hagain
      rw [if_neg (by simp [hcan])] at h
      obtain rfl := Option.some.inj h
      rfl
    · rename_i hres
      obtain rfl := Option.some.inj h
      simp [exportedCopies, hres]

theorem not_copy_mem_fileActions {rel source dest : Text} :
    .copy source dest ∉ fileActions rel exportType := by
  cases exportType <;> simp [fileActions]

theorem fileActions_eq {rel : Text} : ∀ x ∈ fileActions rel exportType,
    x.collects = false ∧ Builder.appendedParam x = none := by
  cases exportType <;> simp [fileActions, Action.collects, Builder.appendedParam]

theorem collects_of_mem_copyModuleFile
    (h : σ.copyModuleFile m moduleShortPath fileName exportType = some actions)
    (hx : x ∈ actions) : x.collects = false := by
  obtain ⟨sourceFileName, -, rfl⟩ := copyModuleFile_eq h
  split at hx
  · rcases List.mem_append.mp hx with hx | hx
    · obtain ⟨c, -, rfl⟩ := List.mem_map.mp hx
      rfl
    · exact (fileActions_eq x hx).1
  · simp at hx

theorem copy_mem_of_copiesOf (hkind : fileKind fileName = .export exportType)
    (h : σ.copyModuleFile m moduleShortPath fileName exportType = some actions)
    {c : Text × Text} (hc : c ∈ σ.copiesOf m moduleShortPath fileName) :
    .copy c.1 c.2 ∈ actions := by
  obtain ⟨sourceFileName, hfull, rfl⟩ := copyModuleFile_eq h
  rw [copiesOf, hkind, hfull] at hc
  dsimp only at hc
  split at hc
  · rename_i hfile
    have hne : sourceFileName ≠ [] := by
      simp only [isSourceFile, Bool.and_eq_true] at hfile
      simpa using hfile.1.1
    rw [if_pos ⟨hne, copyable_of_isSourceFile hfile⟩]
    exact List.mem_append_left _ (List.mem_map.mpr ⟨c, hc, rfl⟩)
  · simp at hc

theorem mem_copiesOf_of_copy (hkind : fileKind fileName = .export exportType)
    (h : σ.copyModuleFile m moduleShortPath fileName exportType = some actions)
    {c : Text × Text} (hfile : σ.isSourceFile c.1) (hc : .copy c.1 c.2 ∈ actions) :
    c ∈ σ.copiesOf m moduleShortPath fileName := by
  obtain ⟨sourceFileName, hfull, rfl⟩ := copyModuleFile_eq h
  split at hc
  · rcases List.mem_append.mp hc with hc | hc
    · obtain ⟨c', hc', he⟩ := List.mem_map.mp hc
      obtain ⟨h1, h2⟩ := Action.copy.inj he
      obtain rfl : c' = c := Prod.ext h1 h2
      have hsource : c'.1 = sourceFileName := by
        unfold exportedCopies at hc'
        split at hc' <;> simp at hc' <;> rcases hc' with rfl | rfl <;> rfl
      rw [copiesOf, hkind, hfull]
      dsimp only
      rwa [if_pos (hsource ▸ hfile)]
    · exact absurd hc not_copy_mem_fileActions
  · simp at hc

theorem isSourceFile_of_mem_copiesOf {c : Text × Text}
    (hc : c ∈ σ.copiesOf m moduleShortPath fileName) : σ.isSourceFile c.1 := by
  unfold copiesOf at hc
  split at hc
  · split at hc
    · rename_i hfile
      unfold exportedCopies at hc
      split at hc <;> simp at hc <;> rcases hc with rfl | rfl <;> exact hfile
    · simp at hc
  · simp at hc

theorem exported_of_mem_copiesOf {c : Text × Text}
    (hc : c ∈ σ.copiesOf m moduleShortPath fileName) : ∃ ty, fileKind fileName = .export ty := by
  unfold copiesOf at hc
  split at hc
  · rename_i ty _ hkind _
    exact ⟨ty, hkind⟩
  · simp at hc

/-- What the loop does for a file before it returns. -/
def copyListed (σ : Session) (m : Module) (moduleShortPath fileName : Text) :
    Option (List Action) :=
  match fileKind fileName with
  | .export exportType => σ.copyModuleFile m moduleShortPath fileName exportType
  | _ => none

theorem copyListed_of_kind (hkind : fileKind fileName = .export exportType) :
    σ.copyListed m moduleShortPath fileName =
      σ.copyModuleFile m moduleShortPath fileName exportType := by
  rw [copyListed, hkind]

theorem kind_of_copyListed (h : σ.copyListed m moduleShortPath fileName = some actions) :
    ∃ ty, fileKind fileName = .export ty ∧
      σ.copyModuleFile m moduleShortPath fileName ty = some actions := by
  unfold copyListed at h
  split at h
  · rename_i ty hkind
    exact ⟨ty, hkind, h⟩
  · simp at h

/-- The loop takes the files before the first `.pack` file, and returns if there is one. -/
theorem copyModuleFiles_eq {files : List Text} {returned : Bool}
    (h : σ.copyModuleFiles m moduleShortPath files = some (actions, returned)) :
    gather (σ.copyListed m moduleShortPath) (beforePack files) = some actions ∧
      (returned = true ↔ ∃ f ∈ files, fileKind f = .config) := by
  induction files generalizing actions with
  | nil =>
    simp only [copyModuleFiles, Option.some.injEq, Prod.mk.injEq] at h
    simp [beforePack, gather, ← h.1, ← h.2]
  | cons f files ih =>
    unfold copyModuleFiles at h
    split at h
    · rename_i hkind
      simp only [Option.some.injEq, Prod.mk.injEq] at h
      simp [beforePack, gather, hkind, ← h.1, ← h.2]
    · simp at h
    · rename_i ty hkind
      simp only [Option.bind_eq_bind, Option.bind_eq_some_iff, Option.pure_def, Option.some.injEq,
        Prod.exists, Prod.mk.injEq] at h
      obtain ⟨here, hhere, rest, returned', hrest, rfl, rfl⟩ := h
      obtain ⟨hgather, hreturned⟩ := ih hrest
      have hbefore : beforePack (f :: files) = f :: beforePack files := by
        simp [beforePack, hkind]
      refine ⟨?_, by simp [hreturned, hkind]⟩
      rw [hbefore, Gather.cons_eq_some]
      exact ⟨here, rest, (copyListed_of_kind hkind).trans hhere, hgather, rfl⟩

end files

section collected

theorem collects_of_mem_gather {α : Type*} {f : α → Option (List Action)} {l : List α}
    (hf : ∀ a here, f a = some here → ∀ x ∈ here, x.collects = true)
    (h : gather f l = some actions) (hx : x ∈ actions) : x.collects = true := by
  obtain ⟨a, -, here, hhere, hmem⟩ := Gather.source_of_mem h hx
  exact hf a here hhere x hmem

theorem collectModule_eq_some : σ.collectModule m = some actions ↔
    ∃ libraries includes sysIncludes includeOptions sysLibraries,
      gather σ.collectLibrary m.libraryFileList = some libraries ∧
      gather σ.collectInclude m.includeFileList = some includes ∧
      gather collectSysInclude m.sysIncludeFileList = some sysIncludes ∧
      gather σ.collectIncludeOption m.includeOptionsList = some includeOptions ∧
      gather σ.collectSysLibrary m.sysLibraryFileList = some sysLibraries ∧
      actions = libraries ++ includes ++ sysIncludes ++ includeOptions ++ sysLibraries := by
  simp only [collectModule, Option.bind_eq_bind, Option.bind_eq_some_iff, Option.pure_def,
    Option.some.injEq]
  constructor
  · rintro ⟨l, hl, i, hi, si, hsi, o, ho, sl, hsl, rfl⟩
    exact ⟨l, i, si, o, sl, hl, hi, hsi, ho, hsl, rfl⟩
  · rintro ⟨l, i, si, o, sl, hl, hi, hsi, ho, hsl, rfl⟩
    exact ⟨l, hl, i, hi, si, hsi, o, ho, sl, hsl, rfl⟩

theorem collectLibrary_eq {name : Text} (h : σ.collectLibrary name = some actions) :
    actions ≠ [] ∧ ∀ x ∈ actions, x.collects = true := by
  simp only [collectLibrary, Option.bind_eq_bind, Option.bind_eq_some_iff, Option.pure_def] at h
  obtain ⟨full, -, h⟩ := h
  split at h <;> obtain rfl := Option.some.inj h <;> simp [Action.collects]

theorem collectInclude_eq {name : Text} (h : σ.collectInclude name = some actions) :
    (actions = [] ↔ σ.fullName name = some []) ∧ ∀ x ∈ actions, x.collects = true := by
  simp only [collectInclude, Option.bind_eq_bind, Option.bind_eq_some_iff, Option.pure_def,
    Option.some.injEq] at h
  obtain ⟨full, hfull, rfl⟩ := h
  split <;> simp_all [Action.collects]

theorem collectSysInclude_eq {name : Text} (h : collectSysInclude name = some actions) :
    actions ≠ [] ∧ ∀ x ∈ actions, x.collects = true := by
  obtain rfl := Option.some.inj h
  simp [Action.collects]

theorem collectIncludeOption_eq {name : Text} (h : σ.collectIncludeOption name = some actions) :
    actions ≠ [] ∧ ∀ x ∈ actions, x.collects = true := by
  simp only [collectIncludeOption, Option.bind_eq_bind, Option.bind_eq_some_iff, Option.pure_def,
    Option.some.injEq] at h
  obtain ⟨full, -, rfl⟩ := h
  simp [Action.collects]

theorem collects_of_mem_collectSysLibrary {name : Text}
    (h : σ.collectSysLibrary name = some actions) : ∀ x ∈ actions, x.collects = true := by
  simp only [collectSysLibrary, Option.bind_eq_bind, Option.bind_eq_some_iff, Option.pure_def] at h
  obtain ⟨full, hfull, directory, hdir, h⟩ := h
  split at h
  · obtain rfl := Option.some.inj h
    simp [Action.collects]
  · obtain rfl := Option.some.inj h
    split <;> simp [Action.collects]

theorem collectSysLibrary_eq_nil {name : Text} : σ.collectSysLibrary name = some [] ↔
    name.head? ≠ some '-' ∧ ∃ full, σ.fullName name = some full ∧
      (full ≠ [] → σ.workspace.sourceTree.isDirectory σ.host full = some false) := by
  simp only [collectSysLibrary, Option.bind_eq_bind, Option.bind_eq_some_iff, Option.pure_def]
  constructor
  · rintro ⟨full, hfull, directory, hdir, h⟩
    split at h
    · simp at h
    · rename_i hfalse
      refine ⟨fun hdash => by simp [hdash] at h, full, hfull, fun hne => ?_⟩
      simpa [isFoundDirectory, hne, hfalse] using hdir
  · rintro ⟨hdash, full, hfull, hdir⟩
    refine ⟨full, hfull, false, ?_, by simp [hdash]⟩
    unfold isFoundDirectory
    split
    · rfl
    · rename_i hne
      exact hdir hne

theorem collects_of_mem_collectModule (h : σ.collectModule m = some actions) (hx : x ∈ actions) :
    x.collects = true := by
  obtain ⟨l, i, si, o, sl, hl, hi, hsi, ho, hsl, rfl⟩ := collectModule_eq_some.mp h
  simp only [List.mem_append] at hx
  rcases hx with (((hx | hx) | hx) | hx) | hx
  · exact collects_of_mem_gather (fun _ _ h => (collectLibrary_eq h).2) hl hx
  · exact collects_of_mem_gather (fun _ _ h => (collectInclude_eq h).2) hi hx
  · exact collects_of_mem_gather (fun _ _ h => (collectSysInclude_eq h).2) hsi hx
  · exact collects_of_mem_gather (fun _ _ h => (collectIncludeOption_eq h).2) ho hx
  · exact collects_of_mem_gather (fun _ _ h => collects_of_mem_collectSysLibrary h) hsl hx

/-- A list of names that each make an entry makes none only if it is empty. -/
theorem gather_eq_some_nil_iff {α : Type*} {f : α → Option (List Action)} {l : List α}
    (hf : ∀ a here, f a = some here → here ≠ []) : gather f l = some [] ↔ l = [] := by
  rw [Gather.eq_some_nil]
  refine ⟨fun h => List.eq_nil_iff_forall_not_mem.mpr fun a ha => hf a [] (h a ha) rfl, ?_⟩
  rintro rfl
  simp

theorem collectModule_eq_nil : σ.collectModule m = some [] ↔ σ.NothingToCollect m := by
  have hparts : σ.collectModule m = some [] ↔
      gather σ.collectLibrary m.libraryFileList = some [] ∧
      gather σ.collectInclude m.includeFileList = some [] ∧
      gather collectSysInclude m.sysIncludeFileList = some [] ∧
      gather σ.collectIncludeOption m.includeOptionsList = some [] ∧
      gather σ.collectSysLibrary m.sysLibraryFileList = some [] := by
    rw [collectModule_eq_some]
    constructor
    · rintro ⟨l, i, si, o, sl, hl, hi, hsi, ho, hsl, he⟩
      simp only [List.nil_eq, List.append_eq_nil_iff] at he
      obtain ⟨⟨⟨⟨rfl, rfl⟩, rfl⟩, rfl⟩, rfl⟩ := he
      exact ⟨hl, hi, hsi, ho, hsl⟩
    · rintro ⟨hl, hi, hsi, ho, hsl⟩
      exact ⟨_, _, _, _, _, hl, hi, hsi, ho, hsl, rfl⟩
  have hinclude : ∀ name, σ.collectInclude name = some [] ↔ σ.fullName name = some [] := by
    intro name
    refine ⟨fun h => (collectInclude_eq h).1.mp rfl, fun h => ?_⟩
    simp [collectInclude, h]
  rw [hparts, gather_eq_some_nil_iff fun _ _ h => (collectLibrary_eq h).1,
    gather_eq_some_nil_iff fun _ _ h => (collectSysInclude_eq h).1,
    gather_eq_some_nil_iff fun _ _ h => (collectIncludeOption_eq h).1,
    Gather.eq_some_nil, Gather.eq_some_nil]
  simp only [hinclude, collectSysLibrary_eq_nil]
  exact ⟨fun ⟨hl, hi, hsi, ho, hsl⟩ => ⟨hl, hi, hsi, ho, hsl⟩,
    fun ⟨hl, hi, hsi, ho, hsl⟩ => ⟨hl, hi, hsi, ho, hsl⟩⟩

end collected

end Session

end Awb
