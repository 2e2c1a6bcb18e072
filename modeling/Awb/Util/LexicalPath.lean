import Awb.Builder.Paths
import Awb.Lib.PushPop

/-! What a path means without a look at the file system: its components are read from left to
right, `.` and empty ones are ignored, and `..` removes the last directory. -/

namespace Awb
open PushPop

/-- The component for the parent directory. -/
def isUp (c : Text) : Bool := c == ['.', '.']

/-- A component that is no dot component, which may be empty. -/
def isDir (c : Text) : Bool := c != ['.'] && c != ['.', '.']

/-- A component that names a directory. -/
def isName (c : Text) : Bool := isDir c && c != []

/-- The directories that a path leads through; `none` if a relative one goes above its start. -/
def resolve (path : Text) : Option (List Text) :=
  run isName isUp (isAbsolutePath path) [] (path.splitOn '/')

variable {c path : Text} {l parts : List Text} {clamp : Bool}

theorem isDir_of_isName (h : isName c = true) : isDir c = true := (Bool.and_eq_true_iff.mp h).1

theorem isUp_eq_false_of_isDir (h : isDir c = true) : isUp c = false := by
  have hup := (Bool.and_eq_true_iff.mp h).2
  rwa [bne, Bool.not_eq_true'] at hup

theorem isName_nil : isName [] = false := rfl

theorem isUp_nil : isUp [] = false := rfl

/-- Empty components do not matter. -/
theorem run_filter (l stack : List Text) :
    run isName isUp clamp stack (l.filter (· ≠ [])) = run isName isUp clamp stack l := by
  induction l generalizing stack with
  | nil => rfl
  | cons c l ih =>
    by_cases hc : c = []
    · subst hc
      rw [List.filter_cons_of_neg (by simp), ih, run, isUp_nil, isName_nil]
      simp only [Bool.false_eq_true, if_false]
    · rw [List.filter_cons_of_pos (by simpa using hc), run, run]
      simp only [ih]

theorem filter_splitString (path : Text) :
    (splitString ['/'] path).filter (· ≠ []) = (path.splitOn '/').filter (· ≠ []) := by
  have hp : (fun c => decide (c ∈ ['/'])) = fun c : Char => c == '/' := by
    funext c
    rw [Bool.eq_iff_iff, decide_eq_true_iff, List.mem_singleton, beq_iff_eq]
  rw [List.splitOn_eq_splitOnP, ← hp]
  rcases path with _ | ⟨c, _ | ⟨d, path⟩⟩
  · rw [List.splitOnP_nil]
    rfl
  · rw [splitString]
    split
    next hc => rw [List.mem_singleton.mp hc]; rfl
    next hc => rw [List.splitOnP_eq_singleton (by simpa using hc)]
  · rfl

/-- The components may be read by `SplitString`. -/
theorem resolve_eq (path : Text) :
    resolve path = run isName isUp (isAbsolutePath path) [] (splitString ['/'] path) := by
  rw [resolve, ← run_filter, ← filter_splitString, run_filter]

/-- Components without slashes are found again in the path that joins them. -/
theorem splitOn_join (h : ∀ c ∈ parts, '/' ∉ c) :
    (['/'].intercalate parts).splitOn '/' = if parts = [] then [[]] else parts := by
  split
  next hnil => rw [hnil]; rfl
  next hne => exact List.splitOn_intercalate '/' h hne

/-- A path that is joined from directories leads through them. -/
theorem resolve_join (hslash : ∀ c ∈ parts, '/' ∉ c) (hdirs : ∀ c ∈ parts, isUp c = false) :
    resolve (['/'].intercalate parts) = some (parts.filter isName) := by
  rw [resolve, splitOn_join hslash]
  split
  next hnil =>
    rw [hnil]
    rfl
  next => rw [run_of_noPop hdirs, List.nil_append]

/-- A joined path is absolute if an empty component comes first and another one follows. -/
theorem isAbsolutePath_join (h : ∀ c ∈ parts, '/' ∉ c) :
    isAbsolutePath (['/'].intercalate parts) = true ↔ ∃ c rest, parts = [] :: c :: rest := by
  have hhead {c : Char} {cs : Text} (hc : '/' ∉ c :: cs) : c ≠ '/' := fun heq =>
    hc (heq ▸ List.mem_cons_self ..)
  rcases parts with _ | ⟨c, _ | ⟨d, rest⟩⟩
  · simp [isAbsolutePath]
  · rcases c with _ | ⟨x, c⟩
    · simp [isAbsolutePath]
    · have hx := hhead (h _ (List.mem_cons_self ..))
      simp [isAbsolutePath, hx]
  · rcases c with _ | ⟨x, c⟩
    · simp [isAbsolutePath]
    · have hx := hhead (h _ (List.mem_cons_self ..))
      simp [isAbsolutePath, hx]

end Awb
