import Awb.Builder.ModuleDB
import Awb.Lib.Walk
import Awb.Util.Canonical
import Awb.Util.RelativePath
import Awb.Workspace.References

/-! The modules of the database are collected from the `.awb` files of the source tree. -/

namespace Awb

/-- What a collection leaves: the directories searched, in their order, and the modules. -/
structure Collection where
  searched : List Text := []
  modules : ModuleDB := Multimap.empty

def isAwb (fileName : Text) : Bool :=
  fileName.length ≥ 4 && fileName.drop (fileName.length - 4) = ['.', 'a', 'w', 'b']

def cvsDir : Text := ['C', 'V', 'S']

def svnDir : Text := ['.', 's', 'v', 'n']

namespace ModuleDB
variable (h : Host) (u : UnionDir) (parse : Text → Option Module) (countOnly : Bool)

/-- A `.awb` file; a module that cannot be parsed is deleted. -/
def collectModule (fileName : Text) (c : Collection) : Collection :=
  if countOnly then c
  else
    match parse fileName with
    | some module => { c with modules := c.modules.insert module.provides module }
    | none => c

/-- One name of the file list. -/
def collectEntry (collect : Text → Collection → Option (ℕ × Collection)) (fileName : Text)
    (c : Collection) : Option (ℕ × Collection) := do
  if ← u.isDirectory h fileName then
    if fileName ≠ cvsDir && fileName ≠ svnDir then collect fileName c else return (0, c)
  else if isAwb fileName then return (1, collectModule parse countOnly fileName c)
  else return (0, c)

def collectEntries (collect : Text → Collection → Option (ℕ × Collection)) :
    List Text → Collection → Option (ℕ × Collection)
  | [], c => some (0, c)
  | fileName :: fileList, c => do
    let (count, c) ← collectEntry h u parse countOnly collect fileName c
    let (more, c) ← collectEntries collect fileList c
    return (count + more, c)

/-- `CollectModules`, with fuel for the depth of the tree. -/
def collectModules : ℕ → Text → Collection → Option (ℕ × Collection)
  | 0, _, _ => none
  | fuel + 1, dirName, c =>
    collectEntries h u parse countOnly (collectModules fuel) (u.glob h (fileJoin dirName ['*']))
      { c with searched := c.searched ++ [dirName] }

def countModules (fuel : ℕ) (dirName : Text) : Option ℕ :=
  (collectModules h u parse true fuel dirName {}).map (·.1)

/-- `CollectAllModules`, with the number that it counts before. -/
def collectAllModules (fuel : ℕ) : Option (ℕ × Collection) := do
  let numModules ← countModules h u parse fuel []
  let (_, c) ← collectModules h u parse false fuel [] {}
  return (numModules, c)

end ModuleDB

/-! ### The source tree -/

/-- The name of a place: the names on the way to it, with slashes between. -/
def placeName (place : List Text) : Text := ['/'].intercalate place

/-- A name that stands for itself in a path and in a pattern. -/
structure PlainName (name : Text) : Prop where
  part : IsPart name
  isDir : isDir name = true
  tilde : name.head? ≠ some '~'
  pattern : ∀ c ∈ name, c ∉ ['*', '?', '[', '\\', '{', '}']

theorem plain_cvsDir : PlainName cvsDir :=
  ⟨⟨by decide, by decide⟩, by decide, by decide, by simp [cvsDir]⟩

theorem plain_svnDir : PlainName svnDir :=
  ⟨⟨by decide, by decide⟩, by decide, by decide, by simp [svnDir]⟩

def isHidden (name : Text) : Bool := name.head? = some '.'

/-- The names in each directory below the directories of the search path, as `glob` finds them. -/
structure SourceFiles (h : Host) (u : UnionDir) where
  names : Text → List Text → List Text
  plain : ∀ dir place, ∀ name ∈ names dir place, PlainName name
  depth : ℕ
  bounded : ∀ dir place, depth ≤ place.length → names dir place = []
  /-- A star stands for any name that is not hidden. -/
  glob : ∀ dir ∈ u.searchPath, ∀ place, (∀ name ∈ place, PlainName name) →
    h.glob dir (placeName (place ++ [['*']])) =
      ((names dir place).filter (!isHidden ·)).map fun name => placeName (place ++ [name])
  expandTilde : ∀ path : Text, path.head? ≠ some '~' → h.expandTilde path = path

namespace SourceFiles
variable {h : Host} {u : UnionDir} (files : SourceFiles h u)

/-- The names in any of the directories that lie over one another. -/
def entries (place : List Text) : List Text :=
  (u.searchPath.filter h.isDirectory).flatMap (files.names · place)

/-- The whole source tree, with the directories that are to be entered. -/
def tree : Walk.Tree Text where
  list := files.entries
  isDir place := u.isDirectory h (placeName place) = some true
  enter place := place.getLast? ≠ some cvsDir && place.getLast? ≠ some svnDir

def addNew {α : Type*} [DecidableEq α] (found : List α) (a : α) : List α :=
  if a ∈ found then found else found ++ [a]

/-- Each element, where it is first. -/
def once {α : Type*} [DecidableEq α] (l : List α) : List α := l.foldl addNew []

/-- The tree that is searched, with the directories that are entered. -/
def searchedTree : Walk.Tree Text where
  list place := once ((files.entries place).filter (!isHidden ·))
  isDir := files.tree.isDir
  enter place := place ≠ [cvsDir] && place ≠ [svnDir]

section Once
variable {α β : Type*} [DecidableEq α] [DecidableEq β] {found l : List α} {a : α}

theorem mem_foldl_addNew : a ∈ l.foldl addNew found ↔ a ∈ found ∨ a ∈ l := by
  induction l generalizing found with
  | nil => simp
  | cons b l ih =>
    rw [List.foldl_cons, ih, List.mem_cons, addNew]
    split
    next hmem =>
      refine ⟨Or.imp_right .inr, ?_⟩
      rintro (ha | rfl | ha)
      · exact .inl ha
      · exact .inl hmem
      · exact .inr ha
    next => rw [List.mem_append, List.mem_singleton, or_assoc]

theorem mem_once : a ∈ once l ↔ a ∈ l := by
  rw [once, mem_foldl_addNew]
  exact or_iff_right List.not_mem_nil

theorem nodup_addNew (hfound : found.Nodup) : (addNew found a).Nodup := by
  unfold addNew
  split
  next => exact hfound
  next hnew =>
    refine List.nodup_append.mpr ⟨hfound, List.nodup_singleton a, fun b hb c hc heq => hnew ?_⟩
    exact List.mem_singleton.mp hc ▸ heq ▸ hb

theorem nodup_foldl_addNew (hfound : found.Nodup) : (l.foldl addNew found).Nodup := by
  induction l generalizing found with
  | nil => exact hfound
  | cons b l ih => exact ih (nodup_addNew hfound)

theorem foldl_addNew_map {f : α → β} (hf : Function.Injective f) :
    (l.map f).foldl addNew (found.map f) = (l.foldl addNew found).map f := by
  induction l generalizing found with
  | nil => rfl
  | cons b l ih =>
    have hadd : addNew (found.map f) (f b) = (addNew found b).map f := by
      by_cases hmem : b ∈ found
      · rw [addNew, addNew, if_pos hmem, if_pos (List.mem_map_of_mem hmem)]
      · rw [addNew, addNew, if_neg hmem, if_neg (mt (List.mem_map_of_injective hf).mp hmem),
          List.map_append]
        rfl
    rw [List.map_cons, List.foldl_cons, List.foldl_cons, hadd, ih]

end Once

variable {files} {place : List Text} {name : Text}

theorem placeName_concat_injective (place : List Text) :
    Function.Injective fun name => placeName (place ++ [name]) := by
  intro name name' heq
  by_cases hnil : place = []
  · subst hnil
    simpa [placeName] using heq
  · simp only [placeName, join_concat hnil] at heq
    simpa using heq

/-- What `Glob` finds in a place. -/
theorem glob_eq (hplace : ∀ name ∈ place, PlainName name) :
    u.glob h (fileJoin (placeName place) ['*']) =
      (files.searchedTree.list place).map fun name => placeName (place ++ [name]) := by
  have hstar : fileJoin (placeName place) ['*'] = placeName (place ++ [['*']]) :=
    fileJoin_join (fun c hc => (hplace c hc).part) ⟨by decide, by decide⟩
  have hnames : (u.searchPath.filter h.isDirectory).flatMap
      (h.glob · (placeName (place ++ [['*']]))) =
        ((files.entries place).filter (!isHidden ·)).map fun name =>
          placeName (place ++ [name]) := by
    rw [entries, List.filter_flatMap, List.map_flatMap]
    refine List.flatMap_congr fun dir hdir => ?_
    exact files.glob dir (List.mem_filter.mp hdir).1 place hplace
  have hstep : (fun globs name => if name ∈ globs then globs else globs ++ [name]) =
      @addNew Text _ := by
    funext globs name
    by_cases hmem : name ∈ globs
    · rw [addNew, if_pos hmem, if_pos hmem]
    · rw [addNew, if_neg hmem, if_neg hmem]
  rw [hstar, UnionDir.glob, hnames, hstep]
  exact @foldl_addNew_map Text Text _ _ [] _ _ (placeName_concat_injective place)

theorem plain_of_mem (hname : name ∈ files.entries place) : PlainName name := by
  obtain ⟨dir, -, hname⟩ := List.mem_flatMap.mp hname
  exact files.plain dir place name hname

theorem mem_searchedTree : name ∈ files.searchedTree.list place ↔
    name ∈ files.tree.list place ∧ isHidden name = false := by
  rw [searchedTree, mem_once, List.mem_filter, Bool.not_eq_true']
  rfl

theorem splitOn_placeName (hplace : ∀ name ∈ place, PlainName name) (hne : place ≠ []) :
    (placeName place).splitOn '/' = place := by
  have hsplit := splitOn_join fun c hc => (hplace c hc).part.2
  rw [if_neg hne] at hsplit
  exact hsplit

theorem placeName_inj {q : List Text} (hplace : ∀ name ∈ place, PlainName name)
    (hq : ∀ name ∈ q, PlainName name) (heq : placeName place = placeName q) : place = q := by
  have hempty {r : List Text} (hr : ∀ name ∈ r, PlainName name) (hnil : placeName r = []) :
      r = [] := by
    by_contra hne
    have hsplit := splitOn_placeName hr hne
    rw [hnil] at hsplit
    exact (hr [] (hsplit ▸ List.mem_singleton_self _)).part.1 rfl
  by_cases hne : place = []
  · subst hne
    exact (hempty hq heq.symm).symm
  · have hne' : q ≠ [] := by
      rintro rfl
      exact hne (hempty hplace heq)
    rw [← splitOn_placeName hplace hne, heq, splitOn_placeName hq hne']

theorem placeName_eq_iff (hplace : ∀ name ∈ place, PlainName name) (hname : PlainName name) :
    placeName place = name ↔ place = [name] := by
  have hsingle : placeName [name] = name := List.intercalate_singleton ..
  constructor
  · intro heq
    exact placeName_inj hplace (List.forall_mem_singleton.mpr hname) (heq.trans hsingle.symm)
  · rintro rfl
    exact hsingle

theorem splitString_placeName (hplace : ∀ name ∈ place, PlainName name) (hne : place ≠ []) :
    splitString ['/'] (placeName place) = place := by
  have hsplit := splitOn_placeName hplace hne
  have hlong : placeName place ≠ [] ∧ placeName place ≠ ['/'] := by
    constructor
    · intro hnil
      rw [hnil] at hsplit
      exact (hplace [] (hsplit ▸ List.mem_singleton_self _)).part.1 rfl
    · intro hsingle
      rw [hsingle] at hsplit
      exact (hplace [] (hsplit ▸ List.mem_cons_self ..)).part.1 rfl
  rw [splitString_eq hlong.1 hlong.2]
  exact hsplit

theorem head?_placeName (hplace : ∀ name ∈ place, PlainName name) :
    (placeName place).head? ≠ some '~' ∧ (placeName place).head? ≠ some '/' := by
  rcases place with _ | ⟨name, rest⟩
  · exact ⟨by simp [placeName], by simp [placeName]⟩
  · have hname := hplace name (List.mem_cons_self ..)
    rcases name with _ | ⟨c, name⟩
    · exact absurd rfl hname.part.1
    · have hhead : (placeName ((c :: name) :: rest)).head? = some c := by
        cases rest <;> simp [placeName]
      rw [hhead]
      exact ⟨hname.tilde, fun hc => hname.part.2 (Option.some.inj hc ▸ List.mem_cons_self ..)⟩

/-- The names of the source tree are canonical. -/
theorem canonicalFilename_placeName (files : SourceFiles h u)
    (hplace : ∀ name ∈ place, PlainName name) (hne : place ≠ []) :
    canonicalFilename h.expandTilde (placeName place) = some (placeName place) := by
  obtain ⟨htilde, hslash⟩ := head?_placeName hplace
  have hrel : isAbsolutePath (placeName place) = false := decide_eq_false hslash
  have hkept : place.filter isDir = place := List.filter_eq_self.mpr fun c hc => (hplace c hc).isDir
  rw [canonicalFilename, files.expandTilde _ htilde, hrel, splitString_placeName hplace hne,
    canonicalParts_relative, PushPop.run_of_noPop fun c hc =>
      isUp_eq_false_of_isDir (hplace c hc).isDir, hkept]
  rfl

/-- `IsDirectory` has an answer for each of them. -/
theorem isDirectory_placeName (files : SourceFiles h u) (hplace : ∀ name ∈ place, PlainName name)
    (hne : place ≠ []) : u.isDirectory h (placeName place) = some (files.tree.isDir place) := by
  have hrel : isAbsolutePath (placeName place) = false :=
    decide_eq_false (head?_placeName hplace).2
  have hsome : ∃ b, u.isDirectory h (placeName place) = some b := by
    have hcanonical := files.canonicalFilename_placeName hplace hne
    simp [UnionDir.isDirectory, UnionDir.fullName, UnionDir.getPrefix, hrel, hcanonical]
  obtain ⟨b, hb⟩ := hsome
  have hdir : files.tree.isDir place = decide (u.isDirectory h (placeName place) = some true) := rfl
  rw [hdir, hb]
  cases b <;> rfl

/-! ### The walk through the tree -/

/-- What happens at a place. -/
def collectPlace (files : SourceFiles h u) (parse : Text → Option Module) (countOnly : Bool)
    (c : Collection) (q : List Text) : Collection :=
  if files.tree.isDir q then { c with searched := c.searched ++ [placeName q] }
  else if isAwb (placeName q) then ModuleDB.collectModule parse countOnly (placeName q) c else c

def isModuleFile (files : SourceFiles h u) (q : List Text) : Bool :=
  !files.tree.isDir q && isAwb (placeName q)

/-- The number of files found, and what happens at the places found. -/
def collected (files : SourceFiles h u) (parse : Text → Option Module) (countOnly : Bool)
    (c : Collection) (found : List (List Text)) : ℕ × Collection :=
  (found.countP files.isModuleFile, found.foldl (files.collectPlace parse countOnly) c)

variable {parse : Text → Option Module} {countOnly : Bool} {q : List Text} {c : Collection}
  {collect : Text → Collection → Option (ℕ × Collection)}
  {below : List Text → Option (List (List Text))}

theorem collected_append {found more : List (List Text)} :
    files.collected parse countOnly c (found ++ more) =
      ((files.collected parse countOnly c found).1 + (files.collected parse countOnly
          (files.collected parse countOnly c found).2 more).1,
        (files.collected parse countOnly
          (files.collected parse countOnly c found).2 more).2) := by
  simp only [collected, List.countP_append, List.foldl_append]

theorem collectEntry_eq (hq : ∀ name ∈ q, PlainName name) (hne : q ≠ [])
    (hcollect : ∀ c, collect (placeName q) c = (below q).map
      (files.collected parse countOnly { c with searched := c.searched ++ [placeName q] })) :
    ModuleDB.collectEntry h u parse countOnly collect (placeName q) c =
      (files.searchedTree.item below q).map (files.collected parse countOnly c) := by
  have hisDir : files.searchedTree.isDir q = files.tree.isDir q := rfl
  have henter : files.searchedTree.enter q = (placeName q ≠ cvsDir && placeName q ≠ svnDir) := by
    rw [decide_eq_decide.mpr (placeName_eq_iff hq plain_cvsDir).not,
      decide_eq_decide.mpr (placeName_eq_iff hq plain_svnDir).not]
    rfl
  rw [ModuleDB.collectEntry, files.isDirectory_placeName hq hne, Walk.Tree.item, hisDir, henter]
  cases hdir : files.tree.isDir q with
  | true =>
    rw [if_pos rfl]
    by_cases hguard : (placeName q ≠ cvsDir && placeName q ≠ svnDir) = true
    · rw [if_pos hguard, Option.bind_eq_bind, Option.bind_some, if_pos rfl, if_pos hguard,
        hcollect, Option.map_map]
      congr 1
      funext found
      have hplace : files.collectPlace parse countOnly c q =
          { c with searched := c.searched ++ [placeName q] } := if_pos hdir
      have hfile : files.isModuleFile q = false := by rw [isModuleFile, hdir]; rfl
      rw [Function.comp_apply, collected, collected, List.countP_cons_of_neg (by simp [hfile]),
        List.foldl_cons, hplace]
    · rw [if_neg hguard, Option.bind_eq_bind, Option.bind_some, if_pos rfl, if_neg hguard]
      rfl
  | false =>
    have hplace : files.collectPlace parse countOnly c q =
        if isAwb (placeName q) then ModuleDB.collectModule parse countOnly (placeName q) c else c :=
      if_neg (by simp [hdir])
    have hfile : files.isModuleFile q = isAwb (placeName q) := by
      rw [isModuleFile, hdir, Bool.not_false, Bool.true_and]
    rw [if_neg Bool.false_ne_true, Option.bind_eq_bind, Option.bind_some,
      if_neg Bool.false_ne_true, Option.map_some, collected, List.foldl_cons, hplace,
      List.foldl_nil, List.countP_singleton, hfile]
    split <;> rfl

theorem collectEntries_eq {names : List Text} (hnames : ∀ name ∈ names, PlainName name)
    (hplace : ∀ name ∈ place, PlainName name)
    (hcollect : ∀ q, (∀ name ∈ q, PlainName name) → ∀ c, collect (placeName q) c = (below q).map
      (files.collected parse countOnly { c with searched := c.searched ++ [placeName q] })) :
    ModuleDB.collectEntries h u parse countOnly collect
        (names.map fun name => placeName (place ++ [name])) c =
      (gather (fun name => files.searchedTree.item below (place ++ [name])) names).map
        (files.collected parse countOnly c) := by
  induction names generalizing c with
  | nil => rfl
  | cons name names ih =>
    obtain ⟨hname, hnames⟩ := List.forall_mem_cons.mp hnames
    have hq : ∀ name' ∈ place ++ [name], PlainName name' :=
      List.forall_mem_append.mpr ⟨hplace, List.forall_mem_singleton.mpr hname⟩
    rw [List.map_cons, ModuleDB.collectEntries,
      collectEntry_eq hq (List.concat_ne_nil _ _) (hcollect _ hq), gather]
    cases files.searchedTree.item below (place ++ [name]) with
    | none => rfl
    | some here =>
      have hmore := @ih (files.collected parse countOnly c here).2 hnames
      simp only [Option.map_some, Option.bind_eq_bind, Option.bind_some, hmore]
      cases gather (fun name => files.searchedTree.item below (place ++ [name])) names with
      | none => rfl
      | some rest => exact congrArg some collected_append.symm

/-- `CollectModules` walks through the tree. -/
theorem collectModules_eq {fuel : ℕ} (hplace : ∀ name ∈ place, PlainName name) :
    ModuleDB.collectModules h u parse countOnly fuel (placeName place) c =
      (files.searchedTree.walk fuel place).map
        (files.collected parse countOnly
          { c with searched := c.searched ++ [placeName place] }) := by
  induction fuel generalizing place c with
  | zero => rfl
  | succ fuel ih =>
    have hnames : ∀ name ∈ files.searchedTree.list place, PlainName name := fun name hname =>
      plain_of_mem (mem_searchedTree.mp hname).1
    rw [ModuleDB.collectModules, files.glob_eq hplace, Walk.Tree.walk]
    exact collectEntries_eq hnames hplace fun q hq c => ih hq

theorem searched_collected (found : List (List Text)) :
    (files.collected parse countOnly c found).2.searched =
      c.searched ++ (found.filter files.tree.isDir).map placeName := by
  induction found generalizing c with
  | nil => exact (List.append_nil _).symm
  | cons q found ih =>
    have hstep : (files.collected parse countOnly c (q :: found)).2 =
      (files.collected parse countOnly (files.collectPlace parse countOnly c q) found).2 := rfl
    rw [hstep, ih, collectPlace]
    split
    next hdir => rw [List.filter_cons_of_pos hdir, List.map_cons, List.append_assoc]; rfl
    next hdir =>
      rw [List.filter_cons_of_neg hdir]
      split
      · unfold ModuleDB.collectModule
        split
        · rfl
        · split <;> rfl
      · rfl

/-- The entry of a file in the database. -/
def entry (parse : Text → Option Module) (fileName : Text) : Option (Text × Module) :=
  (parse fileName).map fun module => (module.provides, module)

theorem modules_collected (found : List (List Text)) :
    (files.collected parse false c found).2.modules.entries.Perm
      (((found.filter files.isModuleFile).map placeName).filterMap (entry parse) ++
        c.modules.entries) := by
  induction found generalizing c with
  | nil => exact .refl _
  | cons q found ih =>
    have hstep : (files.collected parse false c (q :: found)).2 =
      (files.collected parse false (files.collectPlace parse false c q) found).2 := rfl
    rw [hstep]
    refine (@ih (files.collectPlace parse false c q)).trans ?_
    by_cases hfile : files.isModuleFile q = true
    · obtain ⟨hdir, hawb⟩ := Bool.and_eq_true_iff.mp hfile
      have hplace : files.collectPlace parse false c q =
          ModuleDB.collectModule parse false (placeName q) c := by
        rw [collectPlace, if_neg (by simpa using hdir), if_pos hawb]
      rw [List.filter_cons_of_pos hfile, List.map_cons, hplace, ModuleDB.collectModule,
        if_neg Bool.false_ne_true]
      cases hparse : parse (placeName q) with
      | none =>
        rw [List.filterMap_cons_none (by rw [entry, hparse]; rfl)]
      | some module =>
        rw [List.filterMap_cons_some (by rw [entry, hparse]; rfl), List.cons_append]
        refine (List.Perm.append_left _ Multimap.perm_insert).trans ?_
        exact List.perm_middle
    · have hplace : (files.collectPlace parse false c q).modules = c.modules := by
        rw [collectPlace]
        split
        · rfl
        next hdir => rw [if_neg fun hawb => hfile (by rw [isModuleFile, hawb]; simpa using hdir)]
      rw [List.filter_cons_of_neg hfile, hplace]

/-! ### What is to be collected -/

/-- A `.awb` file with no CVS or .svn directory on the way to it. -/
def Reachable (files : SourceFiles h u) (fileName : Text) : Prop :=
  ∃ q, files.tree.Seen [] q ∧ files.isModuleFile q = true ∧ placeName q = fileName

/-- No CVS or .svn directory is searched, and the database has each file that can be reached and
parsed once. These are the files that are counted. -/
structure CollectsExactly (files : SourceFiles h u) (parse : Text → Option Module)
    (numModules : ℕ) (c : Collection) : Prop where
  guarded : ∀ dirName ∈ c.searched, ∀ name ∈ dirName.splitOn '/', name ≠ cvsDir ∧ name ≠ svnDir
  collected : ∃ fileNames : List Text, fileNames.Nodup ∧
    (∀ fileName, fileName ∈ fileNames ↔
      files.Reachable fileName ∧ (parse fileName).isSome = true) ∧
    c.modules.entries.Perm (fileNames.filterMap (entry parse)) ∧ numModules = fileNames.length

/-- CVS directories are at the top only, and the files that can be parsed are those without a hidden
name in their path. -/
structure CollectsWhen (files : SourceFiles h u) (parse : Text → Option Module) : Prop where
  top : ∀ place, Relation.ReflTransGen files.tree.Enters [] place → place ≠ [] →
    (∀ name ∈ place, isHidden name = false) → cvsDir ∈ files.tree.list place →
      files.tree.isDir (place ++ [cvsDir]) = false
  parsed : ∀ q, files.tree.Seen [] q → files.isModuleFile q = true →
    ((parse (placeName q)).isSome = true ↔ ∀ name ∈ q, isHidden name = false)

theorem enter_tree : files.tree.enter q = true ↔
    q.getLast? ≠ some cvsDir ∧ q.getLast? ≠ some svnDir := by
  rw [tree, Bool.and_eq_true_iff, decide_eq_true_iff, decide_eq_true_iff]

theorem enter_searchedTree : files.searchedTree.enter q = true ↔ q ≠ [cvsDir] ∧ q ≠ [svnDir] := by
  rw [searchedTree, Bool.and_eq_true_iff, decide_eq_true_iff, decide_eq_true_iff]

/-- A directory without hidden names on the way is searched. -/
theorem searches_of_visible (hpath : Relation.ReflTransGen files.tree.Enters [] q)
    (hvisible : ∀ name ∈ q, isHidden name = false) :
    Relation.ReflTransGen files.searchedTree.Enters [] q := by
  induction hpath with
  | refl => exact .refl
  | @tail d q _ hstep ih =>
    obtain ⟨⟨name, hname, rfl⟩, hdir, henter⟩ := hstep
    obtain ⟨hd, hlast⟩ := List.forall_mem_append.mp hvisible
    have hlisted := mem_searchedTree.mpr ⟨hname, hlast name (List.mem_singleton_self name)⟩
    obtain ⟨hcvs, hsvn⟩ := enter_tree.mp henter
    refine (ih hd).tail ⟨⟨name, hlisted, rfl⟩, hdir, enter_searchedTree.mpr ⟨?_, ?_⟩⟩
    · intro heq
      exact hcvs (by rw [heq]; rfl)
    · intro heq
      exact hsvn (by rw [heq]; rfl)

theorem isModuleFile_isDir (hfile : files.isModuleFile q = true) : files.tree.isDir q = false := by
  simpa using (Bool.and_eq_true_iff.mp hfile).1

/-- A file is found if it can be seen and no name in its path is hidden. -/
theorem seen_of_visible (hfile : files.isModuleFile q = true) (hseen : files.tree.Seen [] q)
    (hvisible : ∀ name ∈ q, isHidden name = false) : files.searchedTree.Seen [] q := by
  obtain ⟨d, hpath, ⟨name, hname, rfl⟩, -⟩ := hseen
  obtain ⟨hd, hlast⟩ := List.forall_mem_append.mp hvisible
  have hlisted := mem_searchedTree.mpr ⟨hname, hlast name (List.mem_singleton_self name)⟩
  refine ⟨d, searches_of_visible hpath hd, ⟨name, hlisted, rfl⟩, fun hdir => ?_⟩
  exact absurd ((isModuleFile_isDir hfile).symm.trans hdir) Bool.false_ne_true

section Top
variable (htop : ∀ place, Relation.ReflTransGen files.tree.Enters [] place → place ≠ [] →
  (∀ name ∈ place, isHidden name = false) → cvsDir ∈ files.tree.list place →
    files.tree.isDir (place ++ [cvsDir]) = false)
include htop

/-- With CVS directories at the top only, no others are searched. -/
theorem visible_of_searches
    (hpath : Relation.ReflTransGen files.searchedTree.Enters [] q) :
    Relation.ReflTransGen files.tree.Enters [] q ∧ ∀ name ∈ q, isHidden name = false := by
  induction hpath with
  | refl => exact ⟨.refl, fun _ hname => absurd hname List.not_mem_nil⟩
  | @tail d q _ hstep ih =>
    obtain ⟨⟨name, hname, rfl⟩, hdir, henter⟩ := hstep
    obtain ⟨hlist, hvisible⟩ := mem_searchedTree.mp hname
    obtain ⟨hd, hall⟩ := ih
    obtain ⟨hcvs, -⟩ := enter_searchedTree.mp henter
    refine ⟨hd.tail ⟨⟨name, hlist, rfl⟩, hdir, enter_tree.mpr ?_⟩,
      List.forall_mem_append.mpr ⟨hall, List.forall_mem_singleton.mpr hvisible⟩⟩
    rw [List.getLast?_concat, Ne, Ne, Option.some_inj, Option.some_inj]
    constructor
    · rintro rfl
      by_cases hnil : d = []
      · exact hcvs (by rw [hnil]; rfl)
      · exact Bool.false_ne_true ((htop d hd hnil hall hlist).symm.trans hdir)
    · rintro rfl
      exact absurd hvisible (by decide)

theorem visible_of_seen (hfile : files.isModuleFile q = true)
    (hseen : files.searchedTree.Seen [] q) :
    files.tree.Seen [] q ∧ ∀ name ∈ q, isHidden name = false := by
  obtain ⟨d, hpath, ⟨name, hname, rfl⟩, -⟩ := hseen
  obtain ⟨hlist, hvisible⟩ := mem_searchedTree.mp hname
  obtain ⟨hd, hall⟩ := visible_of_searches htop hpath
  refine ⟨⟨d, hd, ⟨name, hlist, rfl⟩, fun hdir => ?_⟩,
    List.forall_mem_append.mpr ⟨hall, List.forall_mem_singleton.mpr hvisible⟩⟩
  exact absurd ((isModuleFile_isDir hfile).symm.trans hdir) Bool.false_ne_true

end Top

/-- The names of the files that a walk finds. -/
def fileNames (files : SourceFiles h u) (found : List (List Text)) : List Text :=
  (found.filter files.isModuleFile).map placeName

variable {found : List (List Text)} {fuel : ℕ}

theorem plain_of_found (hwalk : files.searchedTree.walk fuel [] = some found) (hq : q ∈ found) :
    ∀ name ∈ q, PlainName name :=
  ((Walk.Tree.mem_walk hwalk).mp hq).forall_mem
    (fun _ _ hname => plain_of_mem (mem_searchedTree.mp hname).1)
    fun _ hname => absurd hname List.not_mem_nil

theorem nodup_fileNames (hwalk : files.searchedTree.walk fuel [] = some found) :
    (files.fileNames found).Nodup := by
  have hnodup := Walk.Tree.nodup_walk (fun _ => nodup_foldl_addNew .nil) hwalk
  refine List.Nodup.map_on ?_ (hnodup.filter _)
  intro q hq q' hq' heq
  exact placeName_inj (plain_of_found hwalk (List.mem_filter.mp hq).1)
    (plain_of_found hwalk (List.mem_filter.mp hq').1) heq

/-- All modules are collected by one walk. -/
theorem collectAllModules_eq : ModuleDB.collectAllModules h u parse fuel =
    (files.searchedTree.walk fuel []).map fun found =>
      ((files.fileNames found).length,
        (files.collected parse false { searched := [[]] } found).2) := by
  have hwalk (countOnly : Bool) := @collectModules_eq h u files [] parse countOnly {} fuel
    fun _ hname => absurd hname List.not_mem_nil
  have hroot : placeName [] = [] := rfl
  rw [hroot] at hwalk
  rw [ModuleDB.collectAllModules, ModuleDB.countModules, hwalk, hwalk]
  cases files.searchedTree.walk fuel [] with
  | none => rfl
  | some found =>
    have hcount : (files.fileNames found).length = found.countP files.isModuleFile := by
      rw [fileNames, List.length_map, List.countP_eq_length_filter]
    change some (found.countP files.isModuleFile, _) = some ((files.fileNames found).length, _)
    rw [hcount]
    rfl

theorem length_entries (fileNames : List Text) : (fileNames.filterMap (entry parse)).length =
    fileNames.countP fun fileName => (parse fileName).isSome := by
  rw [List.length_filterMap_eq_countP]
  congr 1
  funext fileName
  exact Option.isSome_map

/-- No directory on the way to one that is to be entered has a name that is not. -/
theorem guarded_of_enters (hpath : Relation.ReflTransGen files.tree.Enters [] q) :
    ∀ name ∈ q, name ≠ cvsDir ∧ name ≠ svnDir := by
  induction hpath with
  | refl => exact fun _ hname => absurd hname List.not_mem_nil
  | tail _ hstep ih =>
    obtain ⟨⟨name, -, rfl⟩, -, henter⟩ := hstep
    have hlast := enter_tree.mp henter
    rw [List.getLast?_concat, Ne, Ne, Option.some_inj, Option.some_inj] at hlast
    exact List.forall_mem_append.mpr ⟨ih, List.forall_mem_singleton.mpr hlast⟩

theorem perm_collected (found : List (List Text)) :
    (files.collected parse false { searched := [[]] } found).2.modules.entries.Perm
      ((files.fileNames found).filterMap (entry parse)) := by
  refine (modules_collected found).trans ?_
  exact List.Perm.of_eq (List.append_nil _)

theorem CollectsWhen.collects (hwhen : files.CollectsWhen parse)
    (hwalk : files.searchedTree.walk fuel [] = some found) :
    files.CollectsExactly parse (files.fileNames found).length
      (files.collected parse false { searched := [[]] } found).2 := by
  refine ⟨fun dirName hdirName => ?_, files.fileNames found, nodup_fileNames hwalk,
    fun fileName => ?_, ?_, rfl⟩
  · -- Every directory below the top is entered in the whole tree.
    rw [searched_collected] at hdirName
    rcases List.mem_append.mp hdirName with htop | hdirName
    · rw [List.mem_singleton.mp htop]
      decide
    · obtain ⟨q, hq, rfl⟩ := List.mem_map.mp hdirName
      obtain ⟨hfound, hdir⟩ := List.mem_filter.mp hq
      have hsearched := ((Walk.Tree.mem_walk hwalk).mp hfound).enters hdir
      have hguarded := guarded_of_enters (visible_of_searches hwhen.top hsearched).1
      by_cases hnil : q = []
      · rw [hnil]
        decide
      · rw [splitOn_placeName (plain_of_found hwalk hfound) hnil]
        exact hguarded
  · constructor
    · intro hmem
      obtain ⟨q, hq, rfl⟩ := List.mem_map.mp hmem
      obtain ⟨hfound, hfile⟩ := List.mem_filter.mp hq
      obtain ⟨hseen, hvisible⟩ := visible_of_seen hwhen.top hfile
        ((Walk.Tree.mem_walk hwalk).mp hfound)
      exact ⟨⟨q, hseen, hfile, rfl⟩, (hwhen.parsed q hseen hfile).mpr hvisible⟩
    · rintro ⟨⟨q, hseen, hfile, rfl⟩, hparse⟩
      have hsearched := seen_of_visible hfile hseen ((hwhen.parsed q hseen hfile).mp hparse)
      exact List.mem_map_of_mem
        (List.mem_filter.mpr ⟨(Walk.Tree.mem_walk hwalk).mpr hsearched, hfile⟩)
  · exact perm_collected found

theorem CollectsExactly.when
    (hexact : files.CollectsExactly parse (files.fileNames found).length
      (files.collected parse false { searched := [[]] } found).2)
    (hwalk : files.searchedTree.walk fuel [] = some found) : files.CollectsWhen parse := by
  obtain ⟨hguarded, names, hnodup, hnames, hperm, hlength⟩ := hexact
  have htop : ∀ place, Relation.ReflTransGen files.tree.Enters [] place → place ≠ [] →
      (∀ name ∈ place, isHidden name = false) → cvsDir ∈ files.tree.list place →
        files.tree.isDir (place ++ [cvsDir]) = false := by
    intro place hpath hne hvisible hcvs
    by_contra hdir
    have hdir : files.tree.isDir (place ++ [cvsDir]) = true := by simpa using hdir
    have henter : files.searchedTree.enter (place ++ [cvsDir]) = true := by
      refine enter_searchedTree.mpr ⟨fun heq => hne ?_, fun heq => hne ?_⟩
      · exact (List.append_eq_singleton_iff.mp heq).resolve_right (fun h => by cases h.2) |>.1
      · exact (List.append_eq_singleton_iff.mp heq).resolve_right (fun h => by cases h.2) |>.1
    have hchild : files.searchedTree.Child place (place ++ [cvsDir]) :=
      ⟨cvsDir, mem_searchedTree.mpr ⟨hcvs, rfl⟩, rfl⟩
    have hfound : place ++ [cvsDir] ∈ found := (Walk.Tree.mem_walk hwalk).mpr
      ⟨place, searches_of_visible hpath hvisible, hchild, fun _ => henter⟩
    have hsearched : placeName (place ++ [cvsDir]) ∈
        (files.collected parse false { searched := [[]] } found).2.searched := by
      rw [searched_collected]
      exact List.mem_append_right _ (List.mem_map_of_mem (List.mem_filter.mpr ⟨hfound, hdir⟩))
    have hall := hguarded _ hsearched
    rw [splitOn_placeName (plain_of_found hwalk hfound) (List.concat_ne_nil _ _)] at hall
    exact (hall cvsDir (by simp)).1 rfl
  -- The numbers agree only if all files found can be parsed.
  have hcount := (hperm.symm.trans (perm_collected found)).length_eq
  have hall : names.countP (fun fileName => (parse fileName).isSome) = names.length :=
    List.countP_eq_length.mpr fun fileName hmem => ((hnames fileName).mp hmem).2
  rw [length_entries, length_entries, hall, ← hlength] at hcount
  have hparse := List.countP_eq_length.mp hcount.symm
  have hsub : files.fileNames found ⊆ names := by
    intro fileName hmem
    obtain ⟨q, hq, rfl⟩ := List.mem_map.mp hmem
    obtain ⟨hfound, hfile⟩ := List.mem_filter.mp hq
    have hseen := (visible_of_seen htop hfile ((Walk.Tree.mem_walk hwalk).mp hfound)).1
    exact (hnames _).mpr ⟨⟨q, hseen, hfile, rfl⟩, hparse _ hmem⟩
  have hsame : (files.fileNames found).Perm names :=
    ((nodup_fileNames hwalk).subperm hsub).perm_of_length_le hlength.ge
  refine ⟨htop, fun q hseen hfile => ⟨fun hq => ?_, fun hvisible => ?_⟩⟩
  · have hmem := hsame.mem_iff.mpr ((hnames _).mpr ⟨⟨q, hseen, hfile, rfl⟩, hq⟩)
    obtain ⟨q', hq', heq⟩ := List.mem_map.mp hmem
    obtain ⟨hfound, hfile'⟩ := List.mem_filter.mp hq'
    have hplain : ∀ name ∈ q, PlainName name := hseen.forall_mem (fun _ _ hname =>
      plain_of_mem hname) fun _ hname => absurd hname List.not_mem_nil
    obtain rfl := placeName_inj (plain_of_found hwalk hfound) hplain heq
    exact (visible_of_seen htop hfile ((Walk.Tree.mem_walk hwalk).mp hfound)).2
  · have hfound := (Walk.Tree.mem_walk hwalk).mpr (seen_of_visible hfile hseen hvisible)
    exact hparse _ (List.mem_map_of_mem (List.mem_filter.mpr ⟨hfound, hfile⟩))

theorem when_of_collects (hcollects : ∃ fuel numModules c,
      ModuleDB.collectAllModules h u parse fuel = some (numModules, c) ∧
        files.CollectsExactly parse numModules c) : files.CollectsWhen parse := by
  obtain ⟨fuel, numModules, c, hall, hexact⟩ := hcollects
  rw [files.collectAllModules_eq] at hall
  obtain ⟨found, hwalk, heq⟩ := Option.map_eq_some_iff.mp hall
  obtain ⟨rfl, rfl⟩ := Prod.mk.inj heq
  exact hexact.when hwalk

/-- `CollectAllModules` returns, and it collects and counts the modules that it should exactly if
CVS directories are at the top only, and the files that can be parsed are those that `glob` does
not hide. -/
theorem collectAllModules_iff (files : SourceFiles h u) (parse : Text → Option Module) :
    (∃ fuel numModules c, ModuleDB.collectAllModules h u parse fuel = some (numModules, c) ∧
        files.CollectsExactly parse numModules c) ↔ files.CollectsWhen parse := by
  refine ⟨when_of_collects, fun hwhen => ?_⟩
  have hbounded : ∀ p : List Text, files.depth ≤ p.length → files.searchedTree.list p = [] := by
    intro p hp
    refine List.eq_nil_iff_forall_not_mem.mpr fun name hname => ?_
    obtain ⟨dir, -, hmem⟩ := List.mem_flatMap.mp (mem_searchedTree.mp hname).1
    rw [files.bounded dir p hp] at hmem
    cases hmem
  obtain ⟨found, hwalk⟩ := Walk.Tree.walk_ends (p := []) hbounded
    (Nat.le_add_right files.depth (List.length []))
  refine ⟨files.depth + 1, _, _, ?_, hwhen.collects hwalk⟩
  rw [files.collectAllModules_eq, hwalk]
  rfl

/-! ### A CVS directory below a package -/

def nestedNames (place : List Text) : List Text :=
  if place = [] then [['a']]
  else if place = [['a']] then [cvsDir]
  else if place = [['a'], cvsDir] then ["m.awb".toList]
  else []

def nestedGlob (place : List Text) : List Text :=
  ((nestedNames place).filter (!isHidden ·)).map fun name => placeName (place ++ [name])

def nestedHost : Host where
  fileExists path :=
    path = "/t/a".toList || path = "/t/a/CVS".toList || path = "/t/a/CVS/m.awb".toList
  isDirectory path := path = "/t".toList || path = "/t/a".toList || path = "/t/a/CVS".toList
  openDir _ := true
  openIn _ := true
  expandTilde path := path
  glob _ pattern := nestedGlob (pattern.splitOn '/').dropLast

def nestedPath : UnionDir := ⟨["/t".toList], by decide⟩

theorem plain_nestedNames : ∀ name ∈ nestedNames place, PlainName name := by
  have ha : PlainName ['a'] := ⟨⟨by decide, by decide⟩, by decide, by decide, by simp⟩
  have hm : PlainName "m.awb".toList := ⟨⟨by decide, by decide⟩, by decide, by decide, by simp⟩
  unfold nestedNames
  split_ifs
  · exact List.forall_mem_singleton.mpr ha
  · exact List.forall_mem_singleton.mpr plain_cvsDir
  · exact List.forall_mem_singleton.mpr hm
  · exact fun _ hname => absurd hname List.not_mem_nil

theorem nestedNames_bounded (hplace : 3 ≤ place.length) : nestedNames place = [] := by
  have hne {p : List Text} (hp : p.length < 3) : place ≠ p := by
    rintro rfl
    exact absurd hplace (Nat.not_le.mpr hp)
  rw [nestedNames, if_neg (hne (by decide)), if_neg (hne (by decide)), if_neg (hne (by decide))]

theorem nestedHost_glob (dir : Text) (hplace : ∀ name ∈ place, PlainName name) :
    nestedHost.glob dir (placeName (place ++ [['*']])) = nestedGlob place := by
  have hslash : ∀ c ∈ place ++ [['*']], '/' ∉ c :=
    List.forall_mem_append.mpr ⟨fun c hc => (hplace c hc).part.2,
      List.forall_mem_singleton.mpr (by decide)⟩
  have hsplit := splitOn_join hslash
  rw [if_neg (List.concat_ne_nil _ _)] at hsplit
  have hdrop : ((placeName (place ++ [['*']])).splitOn '/').dropLast = place := by
    rw [placeName, hsplit, List.dropLast_concat]
  exact congrArg nestedGlob hdrop

def nestedFiles : SourceFiles nestedHost nestedPath where
  names _ := nestedNames
  plain _ _ := plain_nestedNames
  depth := 3
  bounded _ _ := nestedNames_bounded
  glob dir _ _ := nestedHost_glob dir
  expandTilde _ _ := rfl

theorem not_collects_nested : ¬ ∃ fuel numModules c,
    ModuleDB.collectAllModules nestedHost nestedPath
        (fun fileName => some { name := fileName, provides := [] }) fuel = some (numModules, c) ∧
      nestedFiles.CollectsExactly (fun fileName => some { name := fileName, provides := [] })
        numModules c := by
  intro hcollects
  have hstep : nestedFiles.tree.Enters [] [['a']] := ⟨⟨['a'], by decide, rfl⟩, by decide, by decide⟩
  have htop := (when_of_collects hcollects).top [['a']] (.single hstep) (by decide) (by decide)
    (by decide)
  revert htop
  decide

end SourceFiles
end Awb
