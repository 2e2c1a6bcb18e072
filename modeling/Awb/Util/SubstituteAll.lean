import Awb.Builder.Paths
import Awb.Lib.Substitution

/-! `StringSubstituteAll` looks at the whole string again after every replacement. It replaces each
occurrence once as long as no replacement makes a new one, and so does
`Benchmark::SubstituteVariables`. -/

namespace Awb
open Substitution

/-- `StringSubstituteAll`; the loop may run for ever. -/
def stringSubstituteAll (fuel : ℕ) (inputString searchString replacementString : Text) :
    Option Text := substituteAll searchString replacementString fuel inputString

def benchmarkDirName : Text := "BENCHMARKDIR".toList

def configDirName : Text := "CONFIGDIR".toList

/-- `SubstituteVariables`, with the directories it asks the workspace for. -/
def substituteVariables (fuel : ℕ) (benchmarkDir configDir arg : Text) : Option Text := do
  let out ← stringSubstituteAll fuel arg benchmarkDirName benchmarkDir
  stringSubstituteAll fuel out configDirName configDir

/-! ### The variables of an argument -/

inductive ArgPiece where
  | char (c : Char)
  | benchmarkDir
  | configDir
  deriving DecidableEq, Repr

/-- An argument, read once from left to right. The number counts the characters of a variable that
are still to be skipped. -/
def argPieces : ℕ → Text → List ArgPiece
  | _, [] => []
  | skip + 1, _ :: cs => argPieces skip cs
  | 0, c :: cs =>
    if benchmarkDirName.isPrefixOf (c :: cs) then
      .benchmarkDir :: argPieces (benchmarkDirName.length - 1) cs
    else if configDirName.isPrefixOf (c :: cs) then
      .configDir :: argPieces (configDirName.length - 1) cs
    else .char c :: argPieces 0 cs

def ArgPiece.text (benchmarkDir configDir : Text) : ArgPiece → Text
  | .char c => [c]
  | .benchmarkDir => benchmarkDir
  | .configDir => configDir

/-- The text of an argument with its variables replaced. -/
def replaceVariables (benchmarkDir configDir arg : Text) : Text :=
  (argPieces 0 arg).flatMap (ArgPiece.text benchmarkDir configDir)

theorem flatMap_argPieces (skip : ℕ) (cs : Text) :
    (argPieces skip cs).flatMap (ArgPiece.text benchmarkDirName configDirName) = cs.drop skip := by
  induction cs generalizing skip with
  | nil => rw [argPieces, List.drop_nil, List.flatMap_nil]
  | cons c cs ih =>
    rcases skip with _ | skip
    · have hname {name : Text} (hne : name ≠ []) (h : name.isPrefixOf (c :: cs) = true) :
          name ++ cs.drop (name.length - 1) = c :: cs := by
        obtain ⟨rest, hrest⟩ := List.isPrefixOf_iff_prefix.mp h
        have hlength := List.length_pos_iff.mpr hne
        have hdrop := congrArg (List.drop name.length) hrest
        rw [List.drop_left, ← Nat.sub_add_cancel hlength, List.drop_succ_cons] at hdrop
        rw [← hdrop, hrest]
      rw [argPieces]
      split
      next h =>
        rw [List.flatMap_cons, ih]
        exact hname (by decide) h
      next =>
        split
        next h =>
          rw [List.flatMap_cons, ih]
          exact hname (by decide) h
        next => rw [List.flatMap_cons, ih]; rfl
    · exact ih skip

theorem replaceVariables_self (arg : Text) :
    replaceVariables benchmarkDirName configDirName arg = arg := flatMap_argPieces 0 arg

/-- A list with one kind of piece as the separator. -/
theorem flatMap_eq_intercalate {α β : Type} [DecidableEq α] {f g : α → List β} {mark : α}
    (hother : ∀ a, a ≠ mark → f a = g a) (l : List α) : l.flatMap f =
      (f mark).intercalate ((l.splitOn mark).map fun chunk => chunk.flatMap g) := by
  induction l with
  | nil => rfl
  | cons a l ih =>
    obtain ⟨chunk, chunks, hchunks⟩ :=
      List.exists_cons_of_ne_nil (List.splitOn_ne_nil mark l)
    rw [List.flatMap_cons, ih, List.splitOn_cons_eq_if_modifyHead, hchunks]
    split
    next h =>
      obtain rfl := beq_iff_eq.mp h
      rw [List.map_cons, List.map_cons, List.map_cons, List.intercalate_cons_cons]
      rfl
    next h =>
      rw [hother a fun hmark => h (beq_iff_eq.mpr hmark), List.modifyHead_cons, List.map_cons,
        List.map_cons]
      rcases chunks with _ | ⟨chunk', chunks⟩
      · rw [List.map_nil, List.intercalate_singleton, List.intercalate_singleton]
        exact List.flatMap_cons.symm
      · rw [List.map_cons, List.intercalate_cons_cons, List.intercalate_cons_cons,
          List.flatMap_cons]
        simp only [List.append_assoc]

section Variables
variable (benchmarkDir configDir arg : Text)

/-- An argument and what becomes of it when one kind of variable is replaced. -/
theorem exists_parts {name replacement : Text} (before after : ArgPiece → Text) (mark : ArgPiece)
    (hname : before mark = name) (hreplacement : after mark = replacement)
    (hother : ∀ piece, piece ≠ mark → after piece = before piece) (pieces : List ArgPiece) :
    ∃ parts, parts ≠ [] ∧ pieces.flatMap before = name.intercalate parts ∧
      pieces.flatMap after = replacement.intercalate parts := by
  refine ⟨(pieces.splitOn mark).map fun chunk => chunk.flatMap before, ?_, ?_, ?_⟩
  · exact fun h => List.splitOn_ne_nil mark pieces (List.map_eq_nil_iff.mp h)
  · rw [← hname]
    exact flatMap_eq_intercalate (fun _ _ => rfl) pieces
  · rw [← hreplacement]
    exact flatMap_eq_intercalate hother pieces

theorem exists_benchmarkDir_parts : ∃ parts, parts ≠ [] ∧
    arg = benchmarkDirName.intercalate parts ∧
    replaceVariables benchmarkDir configDirName arg = benchmarkDir.intercalate parts := by
  have hparts := exists_parts (ArgPiece.text benchmarkDirName configDirName)
    (ArgPiece.text benchmarkDir configDirName) .benchmarkDir rfl rfl
    (by rintro (_ | _ | _) h <;> first | rfl | exact absurd rfl h) (argPieces 0 arg)
  rwa [show List.flatMap _ _ = arg from replaceVariables_self arg] at hparts

theorem exists_configDir_parts : ∃ parts, parts ≠ [] ∧
    replaceVariables benchmarkDir configDirName arg = configDirName.intercalate parts ∧
    replaceVariables benchmarkDir configDir arg = configDir.intercalate parts :=
  exists_parts (ArgPiece.text benchmarkDir configDirName) (ArgPiece.text benchmarkDir configDir)
    .configDir rfl rfl (by rintro (_ | _ | _) h <;> first | rfl | exact absurd rfl h)
    (argPieces 0 arg)

/-- The variables of an argument are replaced once, each kind by its own call. -/
structure ReplacesOnce (benchmarkDir configDir arg : Text) : Prop where
  first : ∃ fuel, stringSubstituteAll fuel arg benchmarkDirName benchmarkDir =
    some (replaceVariables benchmarkDir configDirName arg)
  both : ∃ fuel, substituteVariables fuel benchmarkDir configDir arg =
    some (replaceVariables benchmarkDir configDir arg)

variable {benchmarkDir configDir arg}

theorem replacesOnce_benchmarkDir_iff : (∃ fuel, stringSubstituteAll fuel arg benchmarkDirName
    benchmarkDir = some (replaceVariables benchmarkDir configDirName arg)) ↔
      ¬ benchmarkDirName <:+: replaceVariables benchmarkDir configDirName arg := by
  obtain ⟨parts, hne, harg, hreplaced⟩ := exists_benchmarkDir_parts benchmarkDir arg
  rw [hreplaced]
  nth_rewrite 1 [harg]
  exact substituteAll_iff_of_head (by decide) hne

theorem replacesOnce_configDir_iff : (∃ fuel, stringSubstituteAll fuel
    (replaceVariables benchmarkDir configDirName arg) configDirName configDir =
      some (replaceVariables benchmarkDir configDir arg)) ↔
      ¬ configDirName <:+: replaceVariables benchmarkDir configDir arg := by
  obtain ⟨parts, hne, harg, hreplaced⟩ := exists_configDir_parts benchmarkDir configDir arg
  rw [hreplaced, harg]
  exact substituteAll_iff_of_head (by decide) hne

theorem replacesOnce_iff : ReplacesOnce benchmarkDir configDir arg ↔
    ¬ benchmarkDirName <:+: replaceVariables benchmarkDir configDirName arg ∧
      ¬ configDirName <:+: replaceVariables benchmarkDir configDir arg := by
  rw [← replacesOnce_benchmarkDir_iff, ← replacesOnce_configDir_iff]
  constructor
  · rintro ⟨⟨fuel, hout⟩, fuel', hboth⟩
    refine ⟨⟨fuel, hout⟩, fuel', ?_⟩
    obtain ⟨out, hout', hconfig⟩ := Option.bind_eq_some_iff.mp hboth
    rcases le_total fuel fuel' with hle | hle
    · have hmore := substituteAll_mono hle hout
      rw [stringSubstituteAll, hmore] at hout'
      rwa [Option.some.inj hout']
    · have hmore := substituteAll_mono hle hout'
      rw [stringSubstituteAll, hmore] at hout
      rwa [← Option.some.inj hout]
  · rintro ⟨⟨fuel, hout⟩, fuel', hconfig⟩
    refine ⟨⟨fuel, hout⟩, max fuel fuel', Option.bind_eq_some_iff.mpr
      ⟨replaceVariables benchmarkDir configDirName arg, ?_, ?_⟩⟩
    · exact substituteAll_mono (le_max_left ..) hout
    · exact substituteAll_mono (le_max_right ..) hconfig

end Variables

/-! ### The results -/

/-- Each occurrence is replaced once if nothing disturbs the replacing, and only then as far as the
replacement is not itself the beginning of the search string. The variables of an argument are
replaced once exactly if none of them is there again when its kind has been replaced. -/
theorem replaces_once_iff
    (inputString searchString replacementString benchmarkDir configDir arg : Text) :
    (Undisturbed searchString replacementString
        (cuts searchString inputString.length inputString) →
      ∃ fuel, stringSubstituteAll fuel inputString searchString replacementString =
        some (substituteEach searchString replacementString inputString)) ∧
    (¬ replacementString <+: searchString →
      ((∃ fuel, stringSubstituteAll fuel inputString searchString replacementString =
        some (substituteEach searchString replacementString inputString)) ↔
      Undisturbed searchString replacementString
        (cuts searchString inputString.length inputString))) ∧
    (ReplacesOnce benchmarkDir configDir arg ↔
      ¬ benchmarkDirName <:+: replaceVariables benchmarkDir configDirName arg ∧
        ¬ configDirName <:+: replaceVariables benchmarkDir configDir arg) := by
  obtain ⟨hjoin, hne⟩ := intercalate_cuts searchString inputString.length inputString
  refine ⟨fun h => ?_, fun hnot => ?_, replacesOnce_iff⟩
  · have hmixed := h.substituteAll_intercalate hne
    rwa [hjoin] at hmixed
  · have hiff := substituteAll_iff hnot hne
    rwa [hjoin] at hiff

theorem replaces_once_argument :
    (∃ fuel, stringSubstituteAll fuel "-xaxa".toList "xa".toList "b".toList =
      some "-bb".toList) ∧
    ReplacesOnce "/b".toList "/c".toList "BENCHMARKDIR/CONFIGDIR:BENCHMARKDIR".toList := by
  have hundisturbed : Undisturbed "xa".toList "b".toList (cuts "xa".toList 5 "-xaxa".toList) :=
    undisturbed_of_head (by decide) (by decide)
  obtain ⟨heach, -, hvariables⟩ := replaces_once_iff "-xaxa".toList "xa".toList "b".toList
    "/b".toList "/c".toList "BENCHMARKDIR/CONFIGDIR:BENCHMARKDIR".toList
  obtain ⟨fuel, h⟩ := heach hundisturbed
  exact ⟨⟨fuel, h.trans (by decide)⟩, hvariables.mpr (by decide)⟩

theorem stringSubstituteAll_forever (fuel : ℕ) :
    stringSubstituteAll fuel ['a'] ['a'] ['a', 'a'] = none :=
  substituteAll_eq_none ⟨[], ['a'], rfl⟩ List.infix_rfl fuel

/-- The loop runs for ever when the replacement contains the search string. -/
theorem not_replaces_once :
    (∃ inputString searchString replacementString : Text, searchString ≠ [] ∧
      ∀ fuel, stringSubstituteAll fuel inputString searchString replacementString = none) ∧
    ∃ benchmarkDir configDir arg, ¬ ReplacesOnce benchmarkDir configDir arg := by
  refine ⟨⟨['a'], ['a'], ['a', 'a'], List.cons_ne_nil _ _, stringSubstituteAll_forever⟩,
    '/' :: benchmarkDirName, [], benchmarkDirName, fun h => ?_⟩
  exact (replacesOnce_iff.mp h).1 ⟨['/'], [], by decide⟩

end Awb
