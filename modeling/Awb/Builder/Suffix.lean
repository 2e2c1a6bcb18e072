import Awb.Builder.SourceTree

/-! The suffix of a file name in a union directory, and whether it leads back to the file. -/

namespace Awb

inductive RecursionMode where
  | recursive
  | flat
  deriving DecidableEq, Repr

/-- A union directory of either kind. -/
structure OverlayDir extends UnionDir where
  recursionMode : RecursionMode

namespace OverlayDir
variable (h : Host) (u : OverlayDir)

/-- The directory of the search path that has a canonical name. In a flat union directory the first
component decides. -/
def overlay (myFile : Text) : Option Text :=
  match u.recursionMode with
  | .flat =>
    let dir := (splitString ['/'] myFile).headD []
    match u.searchPath.find? fun overlay => h.fileExists (overlay ++ '/' :: dir) with
    | some overlay => if h.fileExists (overlay ++ '/' :: myFile) then some overlay else none
    | none => none
  | .recursive => u.searchPath.find? fun overlay => h.fileExists (overlay ++ '/' :: myFile)

def getPrefix (fileName : Text) : Option Text :=
  if isAbsolutePath fileName then
    some ((u.searchPath.find? fun dir => dir.isPrefixOf fileName).getD [])
  else do
    let myFile ← canonicalFilename h.expandTilde fileName
    return (u.overlay h myFile).getD []

def fullName (fileName : Text) : Option Text :=
  if isAbsolutePath fileName then some fileName
  else do
    let file ← canonicalFilename h.expandTilde fileName
    let dir ← u.getPrefix h file
    return if dir = [] then [] else dir ++ '/' :: file

/-- `GetSuffix`; `none` also if `substr` begins behind the end and throws. -/
def getSuffix (fileName : Text) : Option Text := do
  let fullname ← u.fullName h fileName
  if fullname = [] then return []
  let dir ← u.getPrefix h fileName
  if dir = [] then return []
  if fullname.length < dir.length then return []
  if fullname.length < dir.length + 1 then none
  return fullname.drop (dir.length + 1)

/-- The name of an existing file. -/
def fileExists (fileName : Text) : Option Bool := do
  let full ← u.fullName h fileName
  return if full = [] then false else h.fileExists full

/-- The suffix is a canonical name, in the first directory that has it. -/
structure Plain (f : Text) : Prop where
  /-- The first directory that is the beginning of an absolute name is all of a parent directory. -/
  absolute : isAbsolutePath f = true → ∃ dir name,
    u.searchPath.find? (fun dir => dir.isPrefixOf f) = some dir ∧ f = dir ++ '/' :: name ∧
      isAbsolutePath name = false ∧ canonicalFilename h.expandTilde name = some name ∧
      u.overlay h name = some dir
  /-- The canonical form of a relative name is relative, and it has no home directory. -/
  relative : isAbsolutePath f = false → ∃ name,
    canonicalFilename h.expandTilde f = some name ∧ isAbsolutePath name = false ∧
      canonicalFilename h.expandTilde name = some name

/-- The suffix is no canonical name, or the name is expanded again, and by chance the same full name
is put together from another directory and another name. -/
structure Chance (f : Text) : Prop where
  found : ∃ full dir name other, u.fullName h f = some full ∧ u.getPrefix h f = some dir ∧
    isAbsolutePath (full.drop (dir.length + 1)) = false ∧
    canonicalFilename h.expandTilde (full.drop (dir.length + 1)) = some name ∧
    u.getPrefix h name = some other ∧ other ≠ [] ∧ full = other ++ '/' :: name ∧
    (isAbsolutePath f = true → name ≠ full.drop (dir.length + 1))
  unstable : isAbsolutePath f = false → ∀ name, canonicalFilename h.expandTilde f = some name →
    isAbsolutePath name = false → canonicalFilename h.expandTilde name ≠ some name

variable {h} {u} {f s full dir : Text}

/-- A recursive union directory is the one that the sources of the packages are in. -/
theorem getPrefix_recursive (hmode : u.recursionMode = .recursive) :
    u.getPrefix h f = u.toUnionDir.getPrefix h f := by
  unfold getPrefix UnionDir.getPrefix overlay
  rw [hmode]

theorem fullName_recursive (hmode : u.recursionMode = .recursive) :
    u.fullName h f = u.toUnionDir.fullName h f := by
  have hsame : u.getPrefix h = u.toUnionDir.getPrefix h := by
    funext file
    exact getPrefix_recursive hmode
  unfold fullName UnionDir.fullName
  rw [hsame]

/-- A full name is made from a directory and a canonical name. -/
theorem fullName_relative (hrel : isAbsolutePath f = false) (hfull : full ≠ []) :
    u.fullName h f = some full ↔ ∃ name dir, canonicalFilename h.expandTilde f = some name ∧
      u.getPrefix h name = some dir ∧ dir ≠ [] ∧ full = dir ++ '/' :: name := by
  rw [fullName, if_neg (Bool.eq_false_iff.mp hrel)]
  constructor
  · intro heq
    obtain ⟨name, hname, heq⟩ := Option.bind_eq_some_iff.mp heq
    obtain ⟨dir, hdir, heq⟩ := Option.bind_eq_some_iff.mp heq
    obtain rfl := Option.some.inj heq
    split at hfull
    next => exact absurd rfl hfull
    next hne => exact ⟨name, dir, hname, hdir, hne, if_neg hne⟩
  · rintro ⟨name, dir, hname, hdir, hne, rfl⟩
    refine Option.bind_eq_some_iff.mpr ⟨name, hname, Option.bind_eq_some_iff.mpr ⟨dir, hdir, ?_⟩⟩
    rw [if_neg hne]
    rfl

theorem getPrefix_relative {name : Text} (hrel : isAbsolutePath f = false)
    (hname : canonicalFilename h.expandTilde f = some name) :
    u.getPrefix h f = some ((u.overlay h name).getD []) := by
  rw [getPrefix, if_neg (Bool.eq_false_iff.mp hrel), hname]
  rfl

/-- What a suffix is cut from. -/
theorem getSuffix_eq_some (hsuffix : u.getSuffix h f = some s) (hs : s ≠ []) :
    ∃ full dir, u.fullName h f = some full ∧ full ≠ [] ∧ u.getPrefix h f = some dir ∧ dir ≠ [] ∧
      dir.length < full.length ∧ s = full.drop (dir.length + 1) := by
  obtain ⟨full, hfull, hsuffix⟩ := Option.bind_eq_some_iff.mp hsuffix
  split at hsuffix
  · exact absurd (Option.some.inj hsuffix).symm hs
  next hne =>
    obtain ⟨dir, hdir, hsuffix⟩ := Option.bind_eq_some_iff.mp hsuffix
    split at hsuffix
    · exact absurd (Option.some.inj hsuffix).symm hs
    next hdirne =>
      split at hsuffix
      · exact absurd (Option.some.inj hsuffix).symm hs
      · split at hsuffix
        · cases hsuffix
        next hlong =>
          refine ⟨full, dir, hfull, hne, hdir, hdirne, ?_, (Option.some.inj hsuffix).symm⟩
          exact Nat.not_lt.mp hlong

/-- The suffix leads back to the full name if its canonical form does. -/
theorem fullName_suffix (hlong : dir.length < full.length)
    (hs : s = full.drop (dir.length + 1)) : u.fullName h s = some full ↔
      isAbsolutePath s = false ∧ ∃ name other, canonicalFilename h.expandTilde s = some name ∧
        u.getPrefix h name = some other ∧ other ≠ [] ∧ full = other ++ '/' :: name := by
  have hfull : full ≠ [] := List.ne_nil_of_length_pos (Nat.zero_lt_of_lt hlong)
  cases hrel : isAbsolutePath s with
  | false => rw [fullName_relative hrel hfull, eq_self, true_and]
  | true =>
    rw [fullName, if_pos hrel, Option.some_inj]
    refine iff_of_false (fun heq => ?_) fun hback => absurd hback.1 (by simp)
    have hlength := congrArg List.length (heq.symm.trans hs)
    rw [List.length_drop] at hlength
    omega

/-- What is put together to the full name with the suffix itself is the directory cut off. -/
theorem eq_of_append {other : Text} (hlong : dir.length < full.length)
    (heq : full = other ++ '/' :: full.drop (dir.length + 1)) (hdir : dir <+: full) :
    other = dir := by
  have hlength := congrArg List.length heq
  rw [List.length_append, List.length_cons, List.length_drop] at hlength
  have hother : other <+: full := ⟨_, heq.symm⟩
  exact (List.prefix_of_prefix_length_le hother hdir (by omega)).eq_of_length (by omega)

theorem getD_eq_some {o : Option Text} (h : o.getD [] = dir) (hne : dir ≠ []) : o = some dir := by
  cases o with
  | none => exact absurd h.symm hne
  | some a => exact congrArg some h

theorem find?_of_getPrefix (habs : isAbsolutePath f = true) (hdir : u.getPrefix h f = some dir)
    (hne : dir ≠ []) : u.searchPath.find? (fun dir => dir.isPrefixOf f) = some dir := by
  rw [getPrefix, if_pos habs, Option.some_inj] at hdir
  exact getD_eq_some hdir hne

/-- A suffix that is a canonical name leads back only to the directory cut off. -/
theorem Plain.of_absolute {other : Text} (habs : isAbsolutePath f = true)
    (hdir : u.getPrefix h f = some dir) (hne : dir ≠ []) (hlong : dir.length < f.length)
    (hs : s = f.drop (dir.length + 1)) (hrel : isAbsolutePath s = false)
    (hcanonical : canonicalFilename h.expandTilde s = some s)
    (hother : u.getPrefix h s = some other) (heq : f = other ++ '/' :: s) :
    u.Plain h f := by
  have hfind := find?_of_getPrefix habs hdir hne
  have hbegins := List.find?_some hfind
  have hdirf : dir <+: f := List.isPrefixOf_iff_prefix.mp hbegins
  obtain rfl : other = dir := eq_of_append hlong (hs ▸ heq) hdirf
  rw [getPrefix_relative hrel hcanonical, Option.some_inj] at hother
  refine ⟨fun _ => ?_, fun hrel' => ?_⟩
  · exact ⟨other, s, hfind, heq, hrel, hcanonical, getD_eq_some hother hne⟩
  · exact absurd (habs.symm.trans hrel') (by simp)

theorem Plain.leads_back (hplain : u.Plain h f) (hfull : u.fullName h f = some full)
    (hfullne : full ≠ []) (hdir : u.getPrefix h f = some dir) (hne : dir ≠ []) :
    isAbsolutePath (full.drop (dir.length + 1)) = false ∧ ∃ name other,
      canonicalFilename h.expandTilde (full.drop (dir.length + 1)) = some name ∧
        u.getPrefix h name = some other ∧ other ≠ [] ∧ full = other ++ '/' :: name := by
  have hcut {name : Text} (heq : full = dir ++ '/' :: name) :
      full.drop (dir.length + 1) = name := by
    rw [heq, List.drop_append]
    simp
  cases habs : isAbsolutePath f with
  | true =>
    obtain ⟨dir', name, hfind, heq, hrel, hcanonical, hoverlay⟩ := hplain.absolute habs
    obtain rfl : dir' = dir := by
      have hfind' := find?_of_getPrefix habs hdir hne
      exact Option.some.inj (hfind.symm.trans hfind')
    obtain rfl : f = full := by
      rw [fullName, if_pos habs, Option.some_inj] at hfull
      exact hfull
    rw [hcut heq]
    refine ⟨hrel, name, dir', hcanonical, ?_, hne, heq⟩
    rw [getPrefix_relative hrel hcanonical, hoverlay]
    rfl
  | false =>
    obtain ⟨name, hname, hrel, hcanonical⟩ := hplain.relative habs
    obtain ⟨name', dir', hname', hdir', -, heq⟩ := (fullName_relative habs hfullne).mp hfull
    obtain rfl : name = name' := Option.some.inj (hname.symm.trans hname')
    have hsame : u.getPrefix h name = u.getPrefix h f := by
      rw [getPrefix_relative hrel hcanonical, getPrefix_relative habs hname]
    obtain rfl : dir' = dir := Option.some.inj (hdir'.symm.trans (hsame.trans hdir))
    rw [hcut heq]
    exact ⟨hrel, name, dir', hcanonical, hdir', hne, heq⟩

/-- Two sibling directories, one with the beginning of the other's name. -/
def siblings : OverlayDir where
  searchPath := ["/a/b".toList, "/a/bc".toList]
  absolute := by decide
  recursionMode := .recursive

def siblingHost : Host where
  fileExists path := path = "/a/bc/x".toList || path = "/a/b/y".toList
  isDirectory _ := false
  openDir _ := false
  openIn _ := true
  expandTilde path := path
  glob _ _ := []

end OverlayDir
end Awb
