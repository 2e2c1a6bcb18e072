import Awb.Lib.Splitting
import Mathlib.Data.List.DropRight
import Mathlib.Tactic

/-! The version tags of `Asim::Package::Svn`. A URL is taken apart at its slashes: in every pattern
a name stands between slashes, so it matches whole parts. -/

namespace Awb.Svn

/-- The parts of a URL. -/
def parts (url : List Char) : List (List Char) := url.splitOn '/'

def join (ps : List (List Char)) : List Char := ['/'].intercalate ps

/-- `m/\/$name\//`: a part with parts on both sides. -/
def hasInner (name url : List Char) : Bool := (parts url).tail.dropLast.contains name

/-- `s/\/$name\/.*$//`. -/
def cutInner (name url : List Char) : List Char :=
  if hasInner name url then
    join ((parts url).take 1 ++ (parts url).tail.takeWhile (· ≠ name))
  else url

/-- `s/\/trunk$//`. -/
def stripTrunk (url : List Char) : List Char :=
  if (parts url).tail.getLast? = some "trunk".toList then join (parts url).dropLast else url

/-- The nonempty part behind the first `name` that has one. -/
def partAfter (name : List Char) : List (List Char) → Option (List Char)
  | p :: q :: ps => if p = name ∧ q ≠ [] then some q else partAfter name (q :: ps)
  | _ => none

/-- `m/\/$name\/([^\/]+)/`. -/
def nameAfter (name url : List Char) : Option (List Char) := partAfter name (parts url).tail

def getRepositoryUrl (url : List Char) : List Char :=
  cutInner "tags".toList (cutInner "branches".toList (stripTrunk url))

def isBranchUrl (url : List Char) : Bool := hasInner "branches".toList url

def isTagUrl (url : List Char) : Bool := hasInner "tags".toList url

def branchNameFromUrl (url : List Char) : Option (List Char) := nameAfter "branches".toList url

def tagNameFromUrl (url : List Char) : Option (List Char) := nameAfter "tags".toList url

/-- The revision as `svn info` prints it. -/
def revision (rev : Nat) : List Char := Nat.toDigits 10 rev

/-- `baseline_tag`, with `csn` when `$use_csn` is set. An undefined name is an empty string where it
is used. -/
def baselineTag (csn : Option (List Char)) (url : List Char) (rev : Nat) : List Char :=
  if isTagUrl url then (tagNameFromUrl url).getD []
  else if isBranchUrl url then (branchNameFromUrl url).getD [] ++ ':' :: revision rev
  else csn.getD (revision rev)

/-- `[A-Z_0-9]`, in either case. -/
def isWordChar (c : Char) : Bool := c.isAlphanum || c = '_'

def isWord (s : List Char) : Bool := !s.isEmpty && s.all isWordChar

def isNumber (s : List Char) : Bool := !s.isEmpty && s.all Char.isDigit

/-- `m/^CSN-([a-z_0-9]+)-[0-9]+$/i`. -/
def csnName (version : List Char) : Option (List Char) :=
  match version.splitOn '-' with
  | [csn, name, number] =>
    if csn.map Char.toLower = "csn".toList ∧ isWord name ∧ isNumber number then some name else none
  | _ => none

/-- `m/^([A-Z_0-9]+):[0-9]+$/i`. -/
def colonName (version : List Char) : Option (List Char) :=
  match version.splitOn ':' with
  | [name, number] => if isWord name ∧ isNumber number then some name else none
  | _ => none

/-- The branch name of a version, if any. -/
def versionName (version : List Char) : List Char :=
  match csnName version with
  | some name => name
  | none => (colonName version).getD version

/-- `svn list`, line by line, and `m/^$version\//`; the latter dies when the version is no
pattern. -/
structure Subversion where
  list : List Char → List (List Char)
  matchLine : List Char → List Char → Option Bool

/-- Does a line of the listing match? -/
def Subversion.found (svn : Subversion) (version : List Char) : List (List Char) → Option Bool
  | [] => some false
  | line :: lines =>
    (svn.matchLine version line).bind fun found =>
      if found then some true else svn.found version lines

def Subversion.search (svn : Subversion) (version repoUrl : List Char) :
    List (List Char) → Option (List Char)
  | [] => some (repoUrl ++ "/trunk".toList)
  | subdir :: subdirs =>
    (svn.found version (svn.list (repoUrl ++ '/' :: subdir))).bind fun found =>
      if found then some (repoUrl ++ '/' :: subdir ++ '/' :: version)
      else svn.search version repoUrl subdirs

/-- Is the version searched for? -/
def isSearched (version : List Char) : Bool :=
  version ≠ [] && version ≠ "0".toList && version ≠ "HEAD".toList

/-- `get_version_url`, in a working copy with the given URL. -/
def Subversion.getVersionUrl (svn : Subversion) (url version : List Char) : Option (List Char) :=
  let repoUrl := getRepositoryUrl url
  let version := versionName version
  if isSearched version then svn.search version repoUrl ["tags".toList, "branches".toList]
  else some (repoUrl ++ "/trunk".toList)

/-- What follows the last `c`. -/
def lastSegment (c : Char) (s : List Char) : List Char := s.rtakeWhile (· ≠ c)

def getRevisionNumber (version : List Char) : Option (List Char) :=
  let csn := version.drop 4
  if version.take 4 = "CSN-".toList ∧ '-' ∈ csn ∧ isNumber (lastSegment '-' csn) then
    some (lastSegment '-' csn)
  else if ':' ∈ version ∧ isNumber (lastSegment ':' version) then some (lastSegment ':' version)
  else if isNumber version then some version
  else none

/-! ### Parts -/

variable {url a b name : List Char} {ps : List (List Char)}

theorem parts_ne_nil : parts url ≠ [] := List.splitOn_ne_nil '/' url

theorem notMem_of_mem_parts {p : List Char} (h : p ∈ parts url) : '/' ∉ p :=
  Splitting.notMem_of_mem_splitOn h

theorem join_parts : join (parts url) = url := List.intercalate_splitOn '/'

theorem parts_join (hne : ps ≠ []) (h : ∀ p ∈ ps, '/' ∉ p) : parts (join ps) = ps :=
  List.splitOn_intercalate '/' h hne

theorem parts_injective (h : parts a = parts b) : a = b := by
  have ha : join (parts a) = a := join_parts
  rw [← ha, h, join_parts]

theorem parts_slash : parts (a ++ '/' :: b) = parts a ++ parts b :=
  List.splitOn_append_cons_self a b

theorem parts_single (h : '/' ∉ a) : parts a = [a] := List.splitOn_eq_singleton h

theorem hasInner_iff : hasInner name url = true ↔ name ∈ (parts url).tail.dropLast :=
  List.contains_iff_mem

theorem cutInner_of_not (h : ¬ hasInner name url) : cutInner name url = url := if_neg h

/-- The first place where a name has parts on both sides. -/
structure At (name url : List Char) (ps rest : List (List Char)) : Prop where
  split : parts url = ps ++ name :: rest
  before : ps ≠ []
  first : name ∉ ps.tail

variable {rest : List (List Char)}

theorem At.tail (h : At name url ps rest) : (parts url).tail = ps.tail ++ name :: rest := by
  rw [h.split]
  exact List.tail_append_of_ne_nil h.before

theorem At.hasInner (h : At name url ps rest) (hrest : rest ≠ []) : hasInner name url := by
  rw [hasInner_iff, h.tail, List.dropLast_append_of_ne_nil (List.cons_ne_nil name rest),
    List.dropLast_cons_of_ne_nil hrest]
  exact List.mem_append_right _ List.mem_cons_self

theorem exists_at (h : name ∈ (parts url).tail) : ∃ ps rest, At name url ps rest := by
  obtain ⟨p, t, hparts⟩ := List.exists_cons_of_ne_nil (parts_ne_nil : parts url ≠ [])
  rw [hparts, List.tail_cons] at h
  obtain ⟨l, rest, rfl, hl⟩ := List.eq_append_cons_of_mem h
  exact ⟨p :: l, rest, hparts, List.cons_ne_nil p l, hl⟩

theorem exists_at_of_hasInner (h : hasInner name url) :
    ∃ ps rest, At name url ps rest ∧ rest ≠ [] := by
  have hmem := hasInner_iff.mp h
  obtain ⟨ps, rest, hat⟩ := exists_at (List.mem_of_mem_dropLast hmem)
  refine ⟨ps, rest, hat, ?_⟩
  rintro rfl
  rw [hat.tail, List.dropLast_concat] at hmem
  exact hat.first hmem

theorem At.parts_cutInner (h : At name url ps rest) (hrest : rest ≠ []) :
    parts (cutInner name url) = ps := by
  have hps : (parts url).take 1 ++ (parts url).tail.takeWhile (· ≠ name) = ps := by
    have htake : (ps.tail ++ name :: rest).takeWhile (· ≠ name) = ps.tail := by
      rw [List.takeWhile_append_of_pos]
      · simp
      · intro p hp
        exact decide_eq_true fun heq => h.first (heq ▸ hp)
    rw [h.tail, htake, h.split]
    obtain ⟨p, t, rfl⟩ := List.exists_cons_of_ne_nil h.before
    rfl
  rw [cutInner, if_pos (h.hasInner hrest), hps]
  refine parts_join h.before fun p hp => notMem_of_mem_parts (?_ : p ∈ parts url)
  rw [h.split]
  exact List.mem_append_left _ hp

theorem At.nameAfter {q : List Char} (h : At name url ps (q :: rest)) (hq : q ≠ []) :
    nameAfter name url = some q := by
  have hafter : ∀ l : List (List Char), name ∉ l →
      partAfter name (l ++ name :: q :: rest) = some q := by
    intro l
    induction l with
    | nil =>
      intro _
      rw [List.nil_append, partAfter, if_pos ⟨rfl, hq⟩]
    | cons p l ih =>
      intro hl
      obtain ⟨hp, hl⟩ := List.ne_and_not_mem_of_not_mem_cons hl
      cases l with
      | nil =>
        rw [List.cons_append, List.nil_append, partAfter, if_neg fun h => hp h.1.symm]
        exact ih List.not_mem_nil
      | cons p' l =>
        rw [List.cons_append, List.cons_append, partAfter, if_neg fun h => hp h.1.symm]
        exact ih hl
  rw [Svn.nameAfter, h.tail]
  exact hafter ps.tail h.first

end Awb.Svn
