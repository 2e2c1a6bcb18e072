import Awb.Lib.Substitution
import Awb.Workspace.RemovePath

/-! `prepend_path` and `postpend_path`. The new element is what stands behind the first match of the
workspace's directory in the real path, wherever that is; without a match it is the name as
given. -/

namespace Awb
namespace SearchPath

/-- What Perl does with the name of a directory in a pattern; it dies if the name is no regular
expression there. -/
structure RootRegex where
  /-- The `$1` of `/$rootdir\/(.*)/`, if it matches. -/
  behind : Text → Text → Except Text (Option Text)
  behind_plain : ∀ root t, Plain root → behind root t = .ok
    ((Substitution.cutAt (root ++ ['/']) t).map fun cut => cut.2.takeWhile (· ≠ '\n'))

namespace FileSystem

/-- The real path of a directory that is given by an absolute or a relative name. -/
def realDir (fs : FileSystem) (dir : Text) : Text := fs.realpath (absPath (fs.rel2abs dir))

/-- What the system promises of directories: a real path is the name of the same one, and so is an
absolute name without its empty and dot components. -/
structure RealPaths (fs : FileSystem) : Prop where
  isDir_realpath : ∀ d, fs.isDir d = true → fs.isDir (fs.realpath d) = true
  realpath_realpath : ∀ d, fs.isDir d = true → fs.realpath (fs.realpath d) = fs.realpath d
  isDir_canon : ∀ d, isAbsolutePath d = true → fs.isDir (absPath (canonComps d)) = fs.isDir d
  realpath_canon : ∀ d, isAbsolutePath d = true →
    fs.realpath (absPath (canonComps d)) = fs.realpath d

/-- `_relativize_dir`. -/
def relativizeDir (rx : RootRegex) (fs : FileSystem) (rootdir dir : Text) : Except Text Text :=
  (rx.behind rootdir (fs.realDir dir)).map (·.getD dir)

end FileSystem

inductive Place
  | front
  | back

/-- New elements at an end of a list. -/
def Place.add {α : Type*} (news olds : List α) : Place → List α
  | front => news ++ olds
  | back => olds ++ news

namespace Workspace

def prependPath (w : Workspace) (rx : RootRegex) (fs : FileSystem)
    (packages : List Text → List Text) (fuel : ℕ) (dir : Text) :
    Except Text (Option (Bool × Workspace)) :=
  (fs.relativizeDir rx w.config.rootDir dir).map fun rdir =>
    w.setPath fs packages fuel (rdir :: w.unexpandedPath)

def postpendPath (w : Workspace) (rx : RootRegex) (fs : FileSystem)
    (packages : List Text → List Text) (fuel : ℕ) (dir : Text) :
    Except Text (Option (Bool × Workspace)) :=
  (fs.relativizeDir rx w.config.rootDir dir).map fun rdir =>
    w.setPath fs packages fuel (w.unexpandedPath ++ [rdir])

/-- The call that adds an element at an end. -/
def addPath (w : Workspace) (rx : RootRegex) (fs : FileSystem)
    (packages : List Text → List Text) (fuel : ℕ) (dir : Text) :
    Place → Except Text (Option (Bool × Workspace))
  | .front => w.prependPath rx fs packages fuel dir
  | .back => w.postpendPath rx fs packages fuel dir

/-- The call returns; one element is added at the end that is asked for, and its only expansion has
the real path of the directory. -/
def AddsOne (w : Workspace) (rx : RootRegex) (fs : FileSystem) (packages : List Text → List Text)
    (dir : Text) (place : Place) : Prop :=
  ∃ fuel report w' element e,
    w.addPath rx fs packages fuel dir place = .ok (some (report, w')) ∧
      w'.elements = place.add [element] w.elements ∧
      w.config.expansions fuel [element] = some [e] ∧ e.IsAt fs (fs.realDir dir)

/-! ### The condition -/

/-- A name that a search path takes as it is. -/
structure Literal (name : Text) : Prop where
  noColon : ':' ∉ name
  noRef : leftmostRef perlRef name = none
  noGroup : crossMatch name = none

/-- The path is not taken for none, and no empty element is the last of the new one. -/
def Listed (w : Workspace) (place : Place) (name : Text) : Prop :=
  w.config.searchPath ≠ ['0'] ∧ (place.add [name] w.elements).getLast? ≠ some []

/-- Below the workspace's directory, or absolute, a name is that of a directory with this real
path. -/
def NamesReal (w : Workspace) (fs : FileSystem) (real name : Text) : Prop :=
  fs.isDir (absolute w.config.rootDir name) = true ∧
    fs.realpath (absolute w.config.rootDir name) = real

/-- When the new element leads back to the directory. -/
inductive ComesBack (w : Workspace) (rx : RootRegex) (fs : FileSystem) (dir : Text)
    (place : Place) : Prop
  /-- The match is at the beginning of the real path: what it leaves is relative to the root. -/
  | below (rest : Text) (hmatch : rx.behind w.config.rootDir (fs.realDir dir) = .ok (some rest))
      (hliteral : Literal rest) (hlisted : w.Listed place rest)
      (hreal : absolute w.config.rootDir rest = fs.realDir dir)
  /-- The match is elsewhere or is cut off, and a link in the workspace leads to the directory. -/
  | linked (rest : Text) (hmatch : rx.behind w.config.rootDir (fs.realDir dir) = .ok (some rest))
      (hliteral : Literal rest) (hlisted : w.Listed place rest)
      (hreal : absolute w.config.rootDir rest ≠ fs.realDir dir)
      (hlink : w.NamesReal fs (fs.realDir dir) rest)
  /-- The name is absolute and not below the root. -/
  | outside (hmatch : rx.behind w.config.rootDir (fs.realDir dir) = .ok none)
      (hliteral : Literal dir) (hlisted : w.Listed place dir) (habs : isAbsolutePath dir = true)
  /-- The name is relative and means the same below the root as below the current directory. -/
  | alike (hmatch : rx.behind w.config.rootDir (fs.realDir dir) = .ok none)
      (hliteral : Literal dir) (hlisted : w.Listed place dir) (habs : isAbsolutePath dir = false)
      (hsame : w.NamesReal fs (fs.realDir dir) dir)
  /-- The name has a colon, a reference or a group, and what is made of it is one element that leads
  to the directory. -/
  | expanded (found : Option Text) (fuel : ℕ) (element : Text) (e : Expansion)
      (hmatch : rx.behind w.config.rootDir (fs.realDir dir) = .ok found)
      (hspecial : ¬ Literal (found.getD dir))
      (hends : (w.config.substitute fuel (found.getD dir)).isSome = true)
      (hone : (place.add ((found.getD dir).splitOn ':') w.unexpandedPath).rdropWhile List.isEmpty =
        place.add [element] w.elements)
      (helement : w.config.expansions fuel [element] = some [e])
      (hdir : e.IsAt fs (fs.realDir dir))

end Workspace
end SearchPath

/-! ### More fuel -/

namespace WorkspaceConfig
variable {w : WorkspaceConfig} {fuel fuel' : ℕ} {path : List Text} {name : Text}

theorem substitute_mono {s t : Text} (h : w.substitute fuel s = some t) (hle : fuel ≤ fuel') :
    w.substitute fuel' s = some t := by
  induction fuel generalizing s fuel' with
  | zero => simp [substitute] at h
  | succ fuel ih =>
    obtain ⟨k, rfl⟩ : ∃ k, fuel' = k + 1 := ⟨fuel' - 1, by omega⟩
    have hk : fuel ≤ k := Nat.le_of_succ_le_succ hle
    unfold substitute at h ⊢
    cases href : leftmostRef perlRef s with
    | none => simpa [href] using h
    | some ref =>
      obtain ⟨before, varname, after⟩ := ref
      simp only [href] at h ⊢
      cases hvar : w.vars varname with
      | none =>
        simp only [hvar] at h ⊢
        exact ih h hk
      | some var =>
        simp only [hvar] at h ⊢
        exact ih h hk

theorem expansions_mono {es : List Expansion} (h : w.expansions fuel path = some es)
    (hle : fuel ≤ fuel') : w.expansions fuel' path = some es := by
  obtain ⟨epath, hepath, rfl⟩ := Option.map_eq_some_iff.mp h
  have hall := (List.forall₂_of_mapM hepath).imp fun _ _ hs => substitute_mono hs hle
  rw [expansions, List.mapM_of_forall₂ hall]
  rfl

theorem expansions_literal (h : SearchPath.Workspace.Literal name) (fuel : ℕ) :
    w.expansions (fuel + 1) [name] = some [⟨absolute w.rootDir name, some 0⟩] := by
  have hsubst : w.substitute (fuel + 1) name = some name := by rw [substitute, h.noRef]
  have hcross : expandCross [name] = [name] := by
    rw [expandCross, List.flatMap_singleton, h.noGroup]
  simp [expansions, hsubst, expandElement, hcross]

end WorkspaceConfig

namespace SearchPath.Workspace

/-! ### The elements of the new path -/

section elements
variable {separator : Char} {l : List Text} {w : Workspace} {place : Place} {name element : Text}

/-- A text that is joined from parts is split where they are. -/
theorem splitOn_join_parts (hl : l ≠ []) :
    ([separator].intercalate l).splitOn separator = l.flatMap (·.splitOn separator) := by
  induction l with
  | nil => exact absurd rfl hl
  | cons part l ih =>
    cases l with
    | nil => rw [List.intercalate_singleton, List.flatMap_singleton]
    | cons next l =>
      rw [List.intercalate_cons_cons, List.append_assoc, List.singleton_append,
        List.splitOn_append_cons_self, ih (List.cons_ne_nil next l)]
      rfl

theorem flatMap_splitOn (h : ∀ part ∈ l, separator ∉ part) :
    l.flatMap (·.splitOn separator) = l := by
  rw [List.flatMap_congr fun part hpart => List.splitOn_eq_singleton (h part hpart),
    List.flatMap_singleton']

theorem separator_notMem_unexpandedPath {part : Text} (h : part ∈ w.unexpandedPath) :
    ':' ∉ part := by
  unfold unexpandedPath at h
  split at h
  · simp at h
  · exact separator_notMem_elements h

/-- What is read back after an element was added. -/
theorem perlSplit_add : perlSplit ':' ([':'].intercalate (place.add [name] w.unexpandedPath)) =
    (place.add (name.splitOn ':') w.unexpandedPath).rdropWhile List.isEmpty := by
  have hsplit := @flatMap_splitOn ':' w.unexpandedPath fun _ => separator_notMem_unexpandedPath
  cases place with
  | front =>
    rw [perlSplit, splitOn_join_parts (by simp [Place.add]), Place.add, List.singleton_append,
      List.flatMap_cons, hsplit, Place.add]
  | back =>
    rw [perlSplit, splitOn_join_parts (by simp [Place.add]), Place.add, List.flatMap_append, hsplit,
      List.flatMap_singleton, Place.add]

theorem length_add {α : Type*} (news olds : List α) (place : Place) :
    (place.add news olds).length = news.length + olds.length := by
  cases place with
  | front => exact List.length_append
  | back => rw [Place.add, List.length_append, Nat.add_comm]

theorem add_singleton_inj {α : Type*} {a b : α} {olds : List α} {place : Place} :
    place.add [a] olds = place.add [b] olds ↔ a = b := by
  cases place with
  | front => simp [Place.add]
  | back => simp [Place.add]

theorem unexpandedPath_eq (h : w.config.searchPath ≠ ['0']) : w.unexpandedPath = w.elements := by
  unfold unexpandedPath
  split
  · rename_i hfalsy
    have hempty : w.config.searchPath = [] := by simpa [Inifile.Perl.falsy, h] using hfalsy
    rw [elements, hempty]
    rfl
  · rfl

/-- A name without a colon is the new element if the path is read and ends with a name. -/
theorem add_eq_iff (hcolon : ':' ∉ name) :
    (place.add (name.splitOn ':') w.unexpandedPath).rdropWhile List.isEmpty =
        place.add [element] w.elements ↔
      w.Listed place name ∧ element = name := by
  rw [List.splitOn_eq_singleton hcolon]
  have hle := (List.rdropWhile_prefix List.isEmpty
    (place.add [name] w.unexpandedPath)).length_le
  constructor
  · intro h
    have hpath : w.config.searchPath ≠ ['0'] := by
      intro hzero
      have hnone : w.unexpandedPath = [] := by
        rw [unexpandedPath, hzero]
        rfl
      have hone : w.elements = [['0']] := by
        rw [elements, hzero]
        decide
      rw [h, hnone, hone, length_add, length_add] at hle
      simp at hle
    rw [unexpandedPath_eq hpath] at h
    have hself : (place.add [name] w.elements).rdropWhile List.isEmpty =
        place.add [name] w.elements := by
      refine (List.rdropWhile_prefix List.isEmpty _).eq_of_length ?_
      rw [h, length_add, length_add]
      rfl
    exact ⟨⟨hpath, rdropWhile_isEmpty_eq_iff.mp hself⟩,
      (add_singleton_inj.mp (hself.symm.trans h)).symm⟩
  · rintro ⟨⟨hpath, hlast⟩, rfl⟩
    rw [unexpandedPath_eq hpath]
    exact rdropWhile_isEmpty_eq_iff.mpr hlast

end elements

/-! ### The new element -/

section added
variable {rx : RootRegex} {fs : FileSystem} {packages : List Text → List Text} {fuel : ℕ}
  {config : WorkspaceConfig} {w : Workspace} {dir name real : Text} {place : Place}

theorem addPath_eq : w.addPath rx fs packages fuel dir place =
    (rx.behind w.config.rootDir (fs.realDir dir)).map fun found =>
      w.setPath fs packages fuel (place.add [found.getD dir] w.unexpandedPath) := by
  cases place <;>
  · simp only [addPath, prependPath, postpendPath, FileSystem.relativizeDir]
    cases rx.behind w.config.rootDir (fs.realDir dir) <;> rfl

/-- The path that is set is not empty, so it is what is expanded. -/
theorem setPath_add : w.setPath fs packages fuel (place.add [name] w.unexpandedPath) =
    (w.config.expansions fuel (place.add [name] w.unexpandedPath)).map fun es =>
      (!(packages (existing fs es)).isEmpty,
        ⟨{ w.config with
            searchPath := [':'].intercalate (place.add [name] w.unexpandedPath) },
          existing fs es, es.map (·.origin)⟩) := by
  have hne : (place.add [name] w.unexpandedPath).isEmpty = false := by
    cases place <;> simp [Place.add]
  rw [setPath, WorkspaceConfig.rehash, hne]
  simp only [Bool.false_eq_true, if_false, Option.map_map]
  rfl

theorem mem_add {α : Type*} {a : α} {news olds : List α} :
    a ∈ place.add news olds ↔ a ∈ news ∨ a ∈ olds := by
  cases place with
  | front => exact List.mem_append
  | back => rw [Place.add, List.mem_append, or_comm]

theorem isSome_substitute_mono {fuel' : ℕ} {s : Text}
    (h : (w.config.substitute fuel s).isSome = true) (hle : fuel ≤ fuel') :
    (w.config.substitute fuel' s).isSome = true := by
  obtain ⟨t, ht⟩ := Option.isSome_iff_exists.mp h
  rw [WorkspaceConfig.substitute_mono ht hle]
  rfl

theorem isSome_substitute_unexpandedPath (hopen : openConfig fs fuel config = some w) {part : Text}
    (hpart : part ∈ w.unexpandedPath) : (w.config.substitute fuel part).isSome = true := by
  obtain ⟨es, hes, hw⟩ := eq_of_openConfig hopen
  have hconfig : w.config = config := by rw [hw]
  have hmem : part ∈ w.elements := by
    unfold unexpandedPath at hpart
    split at hpart
    · simp at hpart
    · exact hpart
  rw [hconfig]
  exact WorkspaceConfig.isSome_expansions.mp (by rw [hes]; rfl) part hmem

/-- Whether one element is added depends on the name that is stored. -/
theorem addsOne_iff_stored (hopen : openConfig fs fuel config = some w) {found : Option Text}
    (hmatch : rx.behind w.config.rootDir (fs.realDir dir) = .ok found) :
    w.AddsOne rx fs packages dir place ↔ ∃ fuel element e,
      (w.config.substitute fuel (found.getD dir)).isSome = true ∧
        (place.add ((found.getD dir).splitOn ':') w.unexpandedPath).rdropWhile List.isEmpty =
          place.add [element] w.elements ∧
        w.config.expansions fuel [element] = some [e] ∧ e.IsAt fs (fs.realDir dir) := by
  unfold AddsOne
  simp only [addPath_eq, hmatch, setPath_add, Except.map, Except.ok.injEq]
  constructor
  · rintro ⟨fuel', report, w', element, e, hset, helements, hexp, hat⟩
    obtain ⟨es, hes, heq⟩ := Option.map_eq_some_iff.mp hset
    obtain ⟨-, rfl⟩ := Prod.mk.inj heq
    refine ⟨fuel', element, e, ?_, perlSplit_add.symm.trans helements, hexp, hat⟩
    exact WorkspaceConfig.isSome_expansions.mp (by rw [hes]; rfl) _
      (mem_add.mpr (Or.inl List.mem_cons_self))
  · rintro ⟨fuel', element, e, hends, hone, hexp, hat⟩
    have hsome : (w.config.expansions (max fuel fuel')
        (place.add [found.getD dir] w.unexpandedPath)).isSome = true := by
      refine WorkspaceConfig.isSome_expansions.mpr fun part hpart => ?_
      rcases mem_add.mp hpart with hname | hold
      · obtain rfl := List.mem_singleton.mp hname
        exact isSome_substitute_mono hends (le_max_right _ _)
      · exact isSome_substitute_mono (isSome_substitute_unexpandedPath hopen hold)
          (le_max_left _ _)
    obtain ⟨es, hes⟩ := Option.isSome_iff_exists.mp hsome
    refine ⟨max fuel fuel', _, _, element, e, by rw [hes]; rfl, ?_, ?_, hat⟩
    · exact perlSplit_add.trans hone
    · exact WorkspaceConfig.expansions_mono hexp (le_max_right _ _)

/-- A name that is taken as it is leads to one directory. -/
theorem stored_iff_of_literal (hliteral : Literal name) :
    (∃ fuel element e, (w.config.substitute fuel name).isSome = true ∧
      (place.add (name.splitOn ':') w.unexpandedPath).rdropWhile List.isEmpty =
        place.add [element] w.elements ∧
      w.config.expansions fuel [element] = some [e] ∧ e.IsAt fs real) ↔
    w.Listed place name ∧ w.NamesReal fs real name := by
  simp only [add_eq_iff hliteral.noColon]
  constructor
  · rintro ⟨fuel, element, e, -, ⟨hlisted, rfl⟩, hexp, hat⟩
    cases fuel with
    | zero => simp [WorkspaceConfig.expansions, WorkspaceConfig.substitute] at hexp
    | succ fuel =>
      rw [WorkspaceConfig.expansions_literal hliteral, Option.some_inj] at hexp
      obtain rfl := (List.cons.inj hexp).1
      exact ⟨hlisted, hat⟩
  · rintro ⟨hlisted, hnames⟩
    refine ⟨1, name, _, ?_, ⟨hlisted, rfl⟩, WorkspaceConfig.expansions_literal hliteral 0, hnames⟩
    rw [WorkspaceConfig.substitute, hliteral.noRef]
    rfl

theorem namesReal_of_eq (hfs : fs.RealPaths) (hdir : fs.isDir (absPath (fs.rel2abs dir)) = true)
    (h : absolute w.config.rootDir name = fs.realDir dir) :
    w.NamesReal fs (fs.realDir dir) name := by
  unfold NamesReal
  rw [h]
  exact ⟨hfs.isDir_realpath _ hdir, hfs.realpath_realpath _ hdir⟩

theorem namesReal_of_isAbsolutePath (hfs : fs.RealPaths)
    (hdir : fs.isDir (absPath (fs.rel2abs dir)) = true) (habs : isAbsolutePath dir = true) :
    w.NamesReal fs (fs.realDir dir) dir := by
  have hcomps : fs.rel2abs dir = canonComps dir := by rw [FileSystem.rel2abs, if_pos habs]
  unfold NamesReal
  rw [absolute, if_pos habs, FileSystem.realDir, hcomps, hfs.realpath_canon dir habs]
  rw [hcomps, hfs.isDir_canon dir habs] at hdir
  exact ⟨hdir, rfl⟩

/-- With a name that is stored and taken as it is, one element is added if it has the real path. -/
theorem addsOne_iff_of_literal (hopen : openConfig fs fuel config = some w) {found : Option Text}
    (hmatch : rx.behind w.config.rootDir (fs.realDir dir) = .ok found)
    (hliteral : Literal (found.getD dir)) : w.AddsOne rx fs packages dir place ↔
      w.Listed place (found.getD dir) ∧ w.NamesReal fs (fs.realDir dir) (found.getD dir) := by
  rw [addsOne_iff_stored hopen hmatch, stored_iff_of_literal hliteral]

theorem comesBack_of_addsOne (hopen : openConfig fs fuel config = some w)
    (h : w.AddsOne rx fs packages dir place) : w.ComesBack rx fs dir place := by
  cases hmatch : rx.behind w.config.rootDir (fs.realDir dir) with
  | error message =>
    obtain ⟨fuel', report, w', element, e, hadd, -⟩ := h
    rw [addPath_eq, hmatch] at hadd
    cases hadd
  | ok found =>
    by_cases hliteral : Literal (found.getD dir)
    · obtain ⟨hlisted, hnames⟩ := (addsOne_iff_of_literal hopen hmatch hliteral).mp h
      cases found with
      | some rest =>
        by_cases hreal : absolute w.config.rootDir rest = fs.realDir dir
        · exact .below rest hmatch hliteral hlisted hreal
        · exact .linked rest hmatch hliteral hlisted hreal hnames
      | none =>
        cases habs : isAbsolutePath dir with
        | true => exact .outside hmatch hliteral hlisted habs
        | false => exact .alike hmatch hliteral hlisted habs hnames
    · obtain ⟨fuel', element, e, hends, hone, hexp, hat⟩ := (addsOne_iff_stored hopen hmatch).mp h
      exact .expanded found fuel' element e hmatch hliteral hends hone hexp hat

end added

/-! ### A directory with the workspace's name in its path -/

theorem canonComps_absPath_canonComps (d : Text) :
    canonComps (absPath (canonComps d)) = canonComps d := by
  have hkept : ∀ c ∈ canonComps d, '/' ∉ c ∧ (c ≠ [] && c ≠ ['.']) = true := by
    intro c hc
    obtain ⟨hsplit, hkeep⟩ := List.mem_filter.mp ((List.dropWhile_suffix _).subset hc)
    exact ⟨Splitting.notMem_of_mem_splitOn hsplit, hkeep⟩
  have hslash : (slashParts (canonComps d)).filter (fun c => c ≠ [] && c ≠ ['.']) =
      canonComps d := by
    unfold slashParts
    split
    · rename_i hnil
      rw [hnil]
      rfl
    · exact List.filter_eq_self.mpr fun c hc => (hkept c hc).2
  conv_lhs => rw [canonComps]
  rw [splitOn_absPath fun c hc => (hkept c hc).1, List.filter_cons_of_neg (by simp), hslash,
    canonComps, List.dropWhile_idempotent]

/-- Directories without links, by their components. -/
def plainDirs (dirs : List (List Text)) : FileSystem where
  cwd := ['/']
  fileExists _ := true
  isDir d := dirs.contains (canonComps d)
  realpath d := absPath (canonComps d)

theorem realPaths_plainDirs (dirs : List (List Text)) : (plainDirs dirs).RealPaths where
  isDir_realpath d h := by
    simpa only [plainDirs, canonComps_absPath_canonComps] using h
  realpath_realpath d _ := by
    simp only [plainDirs, canonComps_absPath_canonComps]
  isDir_canon d _ := by
    simp only [plainDirs, canonComps_absPath_canonComps]
  realpath_canon d _ := by
    simp only [plainDirs, canonComps_absPath_canonComps]

/-- A workspace with one package, and two directories outside of it. -/
def dataDirs : FileSystem := plainDirs
  [["ws".toList, "a".toList], ["data".toList, "pkg".toList],
    ["data".toList, "ws".toList, "pkg".toList]]

/-- Names without special characters. -/
def literalRoot : RootRegex where
  behind root t := .ok
    ((Substitution.cutAt (root ++ ['/']) t).map fun cut => cut.2.takeWhile (· ≠ '\n'))
  behind_plain _ _ _ := rfl

/-- The workspace with its package in the path. -/
def onePackage : Workspace :=
  ⟨packagesPath "a".toList, ["/ws/a".toList], [some 0]⟩

theorem openConfig_onePackage :
    openConfig dataDirs 1 (packagesPath "a".toList) = some onePackage := by
  have hrehash : (packagesPath "a".toList).rehash dataDirs 1 [] =
      some (["/ws/a".toList], [some 0]) := by decide +kernel
  rw [openConfig, hrehash]
  rfl

theorem literal_of_plain {name : Text} (hcolon : ':' ∉ name) (href : '$' ∉ name)
    (hgroup : '{' ∉ name) : Literal name :=
  ⟨hcolon, leftmostRef_none href, crossMatch_none hgroup⟩

end SearchPath.Workspace
end Awb
