import Awb.Builder.Paths

/-! The union directory with the sources of all packages, and what the builder asks the file
system while it works. -/

namespace Awb

/-- The sources: what is there, and what can be read. -/
structure Host where
  fileExists : Text → Bool
  isDirectory : Text → Bool
  /-- A directory that can be listed. -/
  openDir : Text → Bool
  /-- A file that can be opened for reading. -/
  openIn : Text → Bool
  expandTilde : Text → Text
  /-- The names in a directory that match a pattern. -/
  glob : Text → Text → List Text

/-- The build tree: where directories and files can be made. -/
structure Disk where
  /-- No regular file is in the way of the directory, where `MakeDir` exits. -/
  makeDir : Text → Bool
  /-- A file that can be opened for writing. -/
  openOut : Text → Bool
  isDirectory : Text → Bool

/-- A recursive union directory; the workspace expands its search path to absolute names. -/
structure UnionDir where
  searchPath : List Text
  absolute : ∀ dir ∈ searchPath, isAbsolutePath dir

namespace UnionDir

/-- `GetPrefix`; `none` if the file name has too many `..` and the program exits. -/
def getPrefix (h : Host) (u : UnionDir) (fileName : Text) : Option Text :=
  if isAbsolutePath fileName then
    some ((u.searchPath.find? fun dir => dir.isPrefixOf fileName).getD [])
  else do
    let myFile ← canonicalFilename h.expandTilde fileName
    return (u.searchPath.find? fun dir => h.fileExists (dir ++ '/' :: myFile)).getD []

/-- `FullName`, empty if the file is in no directory of the search path. -/
def fullName (h : Host) (u : UnionDir) (fileName : Text) : Option Text :=
  if isAbsolutePath fileName then some fileName
  else do
    let file ← canonicalFilename h.expandTilde fileName
    let dir ← u.getPrefix h file
    return if dir = [] then [] else dir ++ '/' :: file

def isDirectory (h : Host) (u : UnionDir) (fileName : Text) : Option Bool := do
  let full ← u.fullName h fileName
  return if full = [] then false else h.isDirectory full

/-- `Glob` with a relative pattern: the names found in the directories of the search path, each
once. -/
def glob (h : Host) (u : UnionDir) (filePattern : Text) : List Text :=
  ((u.searchPath.filter h.isDirectory).flatMap fun dir => h.glob dir filePattern).foldl
    (fun globs name => if name ∈ globs then globs else globs ++ [name]) []

variable {h : Host} {u : UnionDir} {file full : Text}

theorem isAbsolutePath_append {dir : Text} (hd : isAbsolutePath dir) (rest : Text) :
    isAbsolutePath (dir ++ rest) := by
  cases dir with
  | nil => simp [isAbsolutePath] at hd
  | cons c dir => simpa [isAbsolutePath] using hd

theorem getD_find?_absolute {p : Text → Bool} (hne : (u.searchPath.find? p).getD [] ≠ []) :
    isAbsolutePath ((u.searchPath.find? p).getD []) := by
  cases hf : u.searchPath.find? p with
  | none => simp [hf] at hne
  | some dir => simpa using u.absolute dir (List.mem_of_find?_eq_some hf)

theorem getPrefix_absolute {dir : Text} (hget : u.getPrefix h file = some dir) (hne : dir ≠ []) :
    isAbsolutePath dir := by
  unfold getPrefix at hget
  split at hget
  · obtain rfl := Option.some.inj hget
    exact getD_find?_absolute hne
  · obtain ⟨myFile, -, heq⟩ := Option.bind_eq_some_iff.mp hget
    obtain rfl := Option.some.inj heq
    exact getD_find?_absolute hne

/-- What `FullName` finds is an absolute name. -/
theorem fullName_absolute (hfull : u.fullName h file = some full) (hne : full ≠ []) :
    isAbsolutePath full := by
  unfold fullName at hfull
  split at hfull
  · rename_i habs
    exact Option.some.inj hfull ▸ habs
  · obtain ⟨canonical, -, hrest⟩ := Option.bind_eq_some_iff.mp hfull
    obtain ⟨dir, hdir, heq⟩ := Option.bind_eq_some_iff.mp hrest
    obtain rfl := Option.some.inj heq
    split at hne
    · exact absurd rfl hne
    · rename_i hd
      rw [if_neg hd]
      exact isAbsolutePath_append (getPrefix_absolute hdir hd) _

theorem fullName_of_absolute (habs : isAbsolutePath full) : u.fullName h full = some full := by
  rw [fullName, if_pos habs]

end UnionDir

end Awb
