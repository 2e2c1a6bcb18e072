import Awb.Inifile.PerlInifile
import Awb.Lib.Folds
import Awb.SearchPath.Resolve
import Awb.Workspace.CrossProducts

/-! The search path of `Asim::Workspace`, which is kept twice: as text in `SEARCHPATH`, and expanded
in the `UnionDir`. A third list is to lead from the second one back to the first. -/

namespace Awb
open SearchPath

/-- An expanded element with the entry of `@epath2path` that is pushed for it: the index of the
element it comes from, or `none` for the mark "X". -/
structure Expansion where
  dir : Text
  origin : Option ℕ
  deriving DecidableEq, Repr

namespace WorkspaceConfig
variable (w : WorkspaceConfig)

/-- `_expand_cross` of one element after its variables are substituted, made absolute. -/
def expandElement (d : Text) (pnum : ℕ) : List Expansion :=
  let xpath := expandCross [d]
  xpath.map fun i => ⟨absolute w.rootDir i, if xpath.length = 1 then some pnum else none⟩

/-- The loops of `_rehash_path` in front of the test whether a directory exists. -/
def expansions (fuel : ℕ) (path : List Text) : Option (List Expansion) :=
  (path.mapM (w.substitute fuel)).map fun epath =>
    epath.zipIdx.flatMap fun (d, pnum) => w.expandElement d pnum

/-- `_rehash_path`: the path in the `UnionDir`, which is without directories that do not exist, and
`@epath2path`, which is not. -/
def rehash (fs : FileSystem) (fuel : ℕ) (path : List Text) :
    Option (List Text × List (Option ℕ)) :=
  let path := if path.isEmpty then perlSplit ':' w.searchPath else path
  (w.expansions fuel path).map fun epath =>
    ((epath.filter (fs.isDir ·.dir)).map (fs.realpath ·.dir), epath.map (·.origin))

end WorkspaceConfig

/-- The object `Asim::Workspace`. -/
structure SearchPath.Workspace where
  config : WorkspaceConfig
  path : List Text
  epath2path : List (Option ℕ)

namespace SearchPath.Workspace

/-- What `open` makes of an `awb.config`. -/
def openConfig (fs : FileSystem) (fuel : ℕ) (config : WorkspaceConfig) : Option Workspace :=
  (config.rehash fs fuel []).map fun (path, epath2path) => ⟨config, path, epath2path⟩

/-- `unexpanded_path`, which takes a false `SEARCHPATH` for none. -/
def unexpandedPath (w : Workspace) : List Text :=
  if Inifile.Perl.falsy w.config.searchPath then [] else perlSplit ':' w.config.searchPath

/-- `set_path`, and whether it returns a true value. The names of packages that can be found in a
path are a parameter. -/
def setPath (w : Workspace) (fs : FileSystem) (packages : List Text → List Text) (fuel : ℕ)
    (path : List Text) : Option (Bool × Workspace) :=
  (w.config.rehash fs fuel path).map fun (upath, epath2path) =>
    (!(packages upath).isEmpty,
      ⟨{ w.config with searchPath := [':'].intercalate path }, upath, epath2path⟩)

/-- `remove_path_by_packagename`, for the location of the package if there is one. The loop that
finds nothing is the last statement; it gives nothing that is true. -/
def removePathByPackagename (w : Workspace) (fs : FileSystem) (packages : List Text → List Text)
    (fuel : ℕ) (location : Option Text) : Option (Bool × Workspace) :=
  match location with
  | none => some (false, w)
  | some packagedir =>
    let idx := w.path.findIdx (· = packagedir)
    if idx < w.path.length then
      match w.epath2path[idx]?.join with
      | some rindex => w.setPath fs packages fuel (w.unexpandedPath.eraseIdx rindex)
      | none => some (false, w)
    else some (false, w)

/-- The elements of `SEARCHPATH`. -/
def elements (w : Workspace) : List Text := perlSplit ':' w.config.searchPath

end SearchPath.Workspace

/-! ### Expansions -/

namespace WorkspaceConfig
variable {w : WorkspaceConfig} {fuel : ℕ} {path : List Text}

theorem map_dir_expandElement (d : Text) (pnum : ℕ) :
    (w.expandElement d pnum).map (·.dir) = (expandCross [d]).map (absolute w.rootDir) := by
  rw [expandElement, List.map_map]
  rfl

theorem map_dir_expansions (epath : List Text) :
    (epath.zipIdx.flatMap fun (d, pnum) => w.expandElement d pnum).map (·.dir) =
      (epath.flatMap fun d => expandCross [d]).map (absolute w.rootDir) := by
  rw [List.map_flatMap, List.map_flatMap]
  calc epath.zipIdx.flatMap (fun e => (w.expandElement e.1 e.2).map (·.dir))
    _ = epath.zipIdx.flatMap ((fun d => (expandCross [d]).map (absolute w.rootDir)) ∘ Prod.fst) :=
        List.flatMap_congr fun e _ => map_dir_expandElement e.1 e.2
    _ = (epath.zipIdx.map Prod.fst).flatMap fun d =>
          (expandCross [d]).map (absolute w.rootDir) := by rw [List.flatMap_map]; rfl
    _ = epath.flatMap fun d => (expandCross [d]).map (absolute w.rootDir) := by
        rw [List.zipIdx_map_fst]

/-- `_rehash_path` expands as it is modelled where both readers of a search path are compared. -/
theorem rehashPath_eq (hpath : path ≠ []) :
    w.rehashPath fuel path = (w.expansions fuel path).map fun es => es.map (·.dir) := by
  have hempty : path.isEmpty = false := by simpa using hpath
  unfold rehashPath expansions
  simp only [hempty, Bool.false_eq_true, if_false]
  cases path.mapM (w.substitute fuel) with
  | none => rfl
  | some epath =>
    rw [Option.map_some, Option.map_some, map_dir_expansions]
    rfl

/-- An element whose index is known has one expansion only. -/
theorem expansions_of_origin {es : List Expansion} {e : Expansion} {k : ℕ}
    (hes : w.expansions fuel path = some es) (he : e ∈ es) (hk : e.origin = some k) :
    ∃ element, path[k]? = some element ∧
      w.expansions fuel [element] = some [⟨e.dir, some 0⟩] := by
  obtain ⟨epath, hepath, rfl⟩ := Option.map_eq_some_iff.mp hes
  obtain ⟨⟨d, pnum⟩, hd, he⟩ := List.mem_flatMap.mp he
  obtain ⟨i, hi, rfl⟩ := List.mem_map.mp he
  dsimp only at hk
  split at hk
  swap
  · simp at hk
  rename_i hone
  obtain rfl := Option.some.inj hk
  obtain ⟨i', hsingle⟩ := List.length_eq_one_iff.mp hone
  rw [hsingle, List.mem_singleton] at hi
  subst hi
  obtain ⟨element, helement, hsubst⟩ :=
    List.getElem?_of_mapM hepath (List.mk_mem_zipIdx_iff_getElem?.mp hd)
  refine ⟨element, helement, ?_⟩
  simp [expansions, hsubst, expandElement, hsingle]

theorem isSome_expansions : (w.expansions fuel path).isSome = true ↔
    ∀ element ∈ path, (w.substitute fuel element).isSome = true := by
  rw [expansions, Option.isSome_map, List.isSome_mapM_iff]

end WorkspaceConfig
end Awb
