import Awb.Package.Csn
import Awb.SearchPath.Regex
import Awb.Workspace.ExpandPath
import Mathlib.Data.Char

/-! The STABLE tag of a package: `_get_stable_tag` sorts the groups of the pack files that match
the name of the package as a pattern, and takes the last one. Versions are sorted as texts. -/

namespace Awb.Repository
open SearchPath

/-- What Perl does with a name in `/^$name\/v/`: it dies if there the name is no regular
expression. -/
structure VersionRegex where
  compile : Text → Except Text (Text → Bool)
  plain : ∀ name, SearchPath.Plain name → compile name = .ok fun g => (name ++ "/v".toList).isPrefixOf g

/-- `/^Global$/`. -/
def isGlobal (g : Text) : Bool := g = "Global".toList || g = "Global\n".toList

/-- `grep` with the pattern, which is compiled for the first group. -/
def grepVersions (rx : VersionRegex) (name : Text) (list : List Text) : Except Text (List Text) :=
  if list.isEmpty then .ok [] else (rx.compile name).map fun isMatch => list.filter isMatch

/-- `($name, $tag) = (split("/", $g), "HEAD")`. -/
def tagOf (g : Text) : Option Text :=
  match perlSplit '/' g with
  | _ :: tag :: _ => some tag
  | [_] => some "HEAD".toList
  | [] => none

/-- `_get_stable_tag`; the groups are those of the pack files. -/
def getStableTag (rx : VersionRegex) (groups : List Text) (name : Text) :
    Except Text (Option Text) :=
  (grepVersions rx name (groups.filter fun g => !isGlobal g)).map fun list =>
    (list.insertionSort (· ≤ ·)).getLast?.bind tagOf

/-! ### Versions -/

/-- The numbers of a version, which dots separate. -/
def versionNumbers (v : Text) : Option (List Nat) :=
  if (v.splitOn '.').all Package.isNumber then
    some ((v.splitOn '.').map fun digits => Nat.ofDigitChars 10 digits 0)
  else none

/-- An entry `name/v<n1>.<n2>...`. -/
def IsEntry (groups : List Text) (name v : Text) (numbers : List Nat) : Prop :=
  name ++ "/v".toList ++ v ∈ groups ∧ versionNumbers v = some numbers

/-- The numbers of no other entry are greater. -/
def Greatest (groups : List Text) (name v : Text) : Prop :=
  ∃ numbers, IsEntry groups name v numbers ∧
    ∀ v' numbers', IsEntry groups name v' numbers' → numbers' ≤ numbers

/-- If there are versions of the package, the tag is the numerically greatest of them. -/
def StableIsGreatest (rx : VersionRegex) (groups : List Text) (name : Text) : Prop :=
  (∃ v numbers, IsEntry groups name v numbers) →
    ∃ v, Greatest groups name v ∧ getStableTag rx groups name = .ok (some ('v' :: v))

/-- The groups that match the name as a pattern. -/
def Matching (rx : VersionRegex) (groups : List Text) (name g : Text) : Prop :=
  g ∈ groups ∧ isGlobal g = false ∧ ∃ isMatch, rx.compile name = .ok isMatch ∧ isMatch g = true

/-- The textually last group that matches has the tag of a greatest version. -/
def GreatestIsLast (rx : VersionRegex) (groups : List Text) (name : Text) : Prop :=
  ∃ g, Matching rx groups name g ∧ (∀ g', Matching rx groups name g' → g' ≤ g) ∧
    ∃ v, Greatest groups name v ∧ tagOf g = some ('v' :: v)

/-! ### The condition -/

variable {rx : VersionRegex} {groups l : List Text} {name g : Text}

theorem getLast?_insertionSort_eq_some_iff :
    (l.insertionSort (· ≤ ·)).getLast? = some g ↔ g ∈ l ∧ ∀ g' ∈ l, g' ≤ g := by
  have hsorted : (l.insertionSort (· ≤ ·)).Pairwise (· ≤ ·) := List.pairwise_insertionSort _ l
  have hmem : ∀ a, a ∈ l.insertionSort (· ≤ ·) ↔ a ∈ l := fun a => List.mem_insertionSort _
  constructor
  · intro h
    refine ⟨(hmem g).mp (List.mem_of_getLast? h), fun g' hg' => ?_⟩
    obtain ⟨front, hfront⟩ := List.getLast?_eq_some_iff.mp h
    rw [← hmem, hfront] at hg'
    rw [hfront] at hsorted
    rcases List.mem_append.mp hg' with hin | hlast
    · exact (List.pairwise_append.mp hsorted).2.2 g' hin g (List.mem_singleton_self g)
    · exact (List.mem_singleton.mp hlast).le
  · rintro ⟨hg, hle⟩
    cases hlast : (l.insertionSort (· ≤ ·)).getLast? with
    | none =>
      have hnil := List.getLast?_eq_none_iff.mp hlast
      rw [← hmem, hnil] at hg
      cases hg
    | some last =>
      obtain ⟨front, hfront⟩ := List.getLast?_eq_some_iff.mp hlast
      have hlastMem := (hmem last).mp (List.mem_of_getLast? hlast)
      rw [hfront] at hsorted
      rw [← hmem, hfront] at hg
      refine congrArg some (le_antisymm (hle last hlastMem) ?_)
      rcases List.mem_append.mp hg with hin | heq
      · exact (List.pairwise_append.mp hsorted).2.2 g hin last (List.mem_singleton_self last)
      · exact (List.mem_singleton.mp heq).le

theorem getStableTag_eq_some_iff {tag : Text} :
    getStableTag rx groups name = .ok (some tag) ↔
      ∃ g, Matching rx groups name g ∧ (∀ g', Matching rx groups name g' → g' ≤ g) ∧
        tagOf g = some tag := by
  unfold getStableTag grepVersions
  by_cases hempty : groups.filter (fun g => !isGlobal g) = []
  · constructor
    · intro h
      rw [hempty] at h
      cases Except.ok.inj h
    · rintro ⟨g, ⟨hg, hglobal, -⟩, -⟩
      have hmem : g ∈ groups.filter fun g => !isGlobal g :=
        List.mem_filter.mpr ⟨hg, by rw [hglobal]; rfl⟩
      rw [hempty] at hmem
      cases hmem
  · rw [if_neg (by simpa using hempty)]
    cases hcompile : rx.compile name with
    | error message =>
      constructor
      · intro h
        cases h
      · rintro ⟨g, ⟨-, -, isMatch, hmatch, -⟩, -⟩
        rw [hcompile] at hmatch
        cases hmatch
    | ok isMatch =>
      have hmem : ∀ g, g ∈ (groups.filter fun g => !isGlobal g).filter isMatch ↔
          Matching rx groups name g := by
        intro g
        simp only [List.mem_filter, Matching, hcompile, Except.ok.injEq, exists_eq_left', and_assoc,
          Bool.not_eq_true']
      have hlast : ∀ g,
          (((groups.filter fun g => !isGlobal g).filter isMatch).insertionSort
            (· ≤ ·)).getLast? = some g ↔
          Matching rx groups name g ∧ ∀ g', Matching rx groups name g' → g' ≤ g := by
        intro g
        simp only [getLast?_insertionSort_eq_some_iff, hmem]
      simp only [Except.map, Except.ok.injEq, Option.bind_eq_some_iff, hlast, and_assoc]

/-- The textual order of all groups that match is what counts. -/
theorem stableIsGreatest_iff (rx : VersionRegex) (groups : List Text) (name : Text) :
    StableIsGreatest rx groups name ↔
      ((∃ v numbers, IsEntry groups name v numbers) → GreatestIsLast rx groups name) := by
  refine forall_congr' fun _ => ?_
  simp only [getStableTag_eq_some_iff]
  constructor
  · rintro ⟨v, hv, g, hg, hlast, htag⟩
    exact ⟨g, hg, hlast, v, hv, htag⟩
  · rintro ⟨g, hg, hlast, v, hv, htag⟩
    exact ⟨v, hv, g, hg, hlast, htag⟩

/-- Names without special characters. -/
def plainVersions : VersionRegex where
  compile name := .ok fun g => (name ++ "/v".toList).isPrefixOf g
  plain _ _ := rfl

/-- The ninth version comes behind the tenth. -/
theorem not_stableIsGreatest :
    ¬ StableIsGreatest plainVersions ["core/v9".toList, "core/v10".toList] "core".toList := by
  intro h
  have hentry : IsEntry ["core/v9".toList, "core/v10".toList] "core".toList "10".toList [10] :=
    ⟨by decide, by decide⟩
  obtain ⟨v, ⟨numbers, ⟨-, hnumbers⟩, hgreatest⟩, hstable⟩ := h ⟨_, _, hentry⟩
  have hnine : getStableTag plainVersions ["core/v9".toList, "core/v10".toList] "core".toList =
      .ok (some "v9".toList) := by decide
  obtain rfl : v = "9".toList := by
    rw [hnine] at hstable
    exact (List.cons.inj (Option.some.inj (Except.ok.inj hstable))).2.symm
  have hnumbers' : versionNumbers "9".toList = some [9] := by decide
  obtain rfl := Option.some.inj (hnumbers'.symm.trans hnumbers)
  exact absurd (hgreatest _ _ hentry) (by decide)

end Awb.Repository
