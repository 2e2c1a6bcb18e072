import Awb.Inifile.CxxInifile

/-! What the regular expressions of `MatchString` share: the class of the white space, and that the
library takes a string only up to its first null character. -/

namespace Awb

/-- `[[:space:]]` -/
def inSpaceClass (c : Char) : Bool := [' ', '\t', '\n', '\x0b', '\x0c', '\r'].contains c

/-- `[^[:space:]]`, in what the library sees of a string. -/
def isToken (c : Char) : Bool := !inSpaceClass c && c ≠ '\x00'

/-- What the library does not see of a string. -/
def unseen (line : Text) : Text := line.dropWhile (· ≠ '\x00')

/-! ### Classes of characters -/

theorem takeWhile_append_stop {before text : Text} {c : Char} {p : Char → Bool} (hc : p c = false) :
    (before ++ c :: text).takeWhile p = before.takeWhile p := by
  induction before with
  | nil => simp [hc]
  | cons a before ih =>
    rw [List.cons_append, List.takeWhile_cons, List.takeWhile_cons, ih]

theorem dropWhile_append_stop {before text : Text} {c : Char} {p : Char → Bool} (hc : p c = false) :
    (before ++ c :: text).dropWhile p = before.dropWhile p ++ c :: text := by
  induction before with
  | nil => simp [hc]
  | cons a before ih =>
    rw [List.cons_append, List.dropWhile_cons, List.dropWhile_cons, ih]
    split <;> rfl

open Inifile.Cxx (cText)

theorem cText_append_unseen (line : Text) : cText line ++ unseen line = line :=
  List.takeWhile_append_dropWhile

theorem null_not_mem_cText (line : Text) : '\x00' ∉ cText line := by
  intro h
  simpa using List.mem_takeWhile_imp h

theorem unseen_eq_nil_or (line : Text) :
    unseen line = [] ∨ ∃ rest, unseen line = '\x00' :: rest := by
  cases h : unseen line with
  | nil => exact .inl rfl
  | cons c rest =>
    refine .inr ⟨rest, ?_⟩
    have hhead := List.head?_dropWhile_not (fun c => decide (c ≠ '\x00')) line
    rw [show line.dropWhile (fun c => decide (c ≠ '\x00')) = c :: rest from h] at hhead
    simpa using hhead

/-- What `getline` reads from a text, one line after the other. -/
def getLines (text : Text) : List Text := (Inifile.rawLines text).map Inifile.chomp

theorem newline_not_mem_getLines {text line : Text} (h : line ∈ getLines text) : '\n' ∉ line := by
  obtain ⟨raw, hraw, rfl⟩ := List.mem_map.mp h
  exact Inifile.newline_not_mem_chomp hraw

/-- A text whose last line ends with a newline. -/
def Terminated (text : Text) : Prop := text = [] ∨ text.getLast? = some '\n'

instance (text : Text) : Decidable (Terminated text) := by unfold Terminated; infer_instance

theorem terminated_cons_iff {c : Char} {text : Text} :
    Terminated (c :: text) ↔ if text = [] then c = '\n' else Terminated text := by
  rcases List.eq_nil_or_concat text with rfl | ⟨front, last, rfl⟩
  · simp [Terminated]
  · have hlast : (c :: (front ++ [last])).getLast? = some last :=
      List.getLast?_concat (l := c :: front)
    rw [List.concat_eq_append, Terminated, Terminated, hlast, List.getLast?_concat]
    simp

theorem ne_nil_of_mem_rawLines {text line : Text} (h : line ∈ Inifile.rawLines text) :
    line ≠ [] := by
  obtain ⟨body, -, rfl | ⟨rfl, hne⟩⟩ := Inifile.body_of_mem_rawLines line h
  · exact List.append_ne_nil_of_right_ne_nil _ (List.cons_ne_nil _ _)
  · exact hne

theorem rawLines_eq_nil_iff {text : Text} : Inifile.rawLines text = [] ↔ text = [] := by
  constructor
  · intro h
    cases text with
    | nil => rfl
    | cons c text =>
      rw [Inifile.rawLines] at h
      split at h
      · cases h
      · split at h <;> cases h
  · rintro rfl
    rfl

/-- Written line by line, a text gets the newline that it may lack. -/
theorem unlines_getLines (text : Text) :
    unlines (getLines text) = if Terminated text then text else text ++ ['\n'] := by
  induction text with
  | nil => rfl
  | cons c text ih =>
    have hterminated : Terminated (c :: text) ↔ _ := terminated_cons_iff
    rw [getLines, Inifile.rawLines]
    by_cases hc : c = '\n'
    · have hsame : Terminated (c :: text) ↔ Terminated text := by
        rw [hterminated]
        split
        next hnil => exact iff_of_true hc (.inl hnil)
        next => rfl
      rw [if_pos hc, if_congr hsame rfl rfl, List.map_cons, unlines, List.flatMap_cons, hc]
      change '\n' :: unlines (getLines text) = _
      rw [ih]
      split <;> rfl
    · rw [if_neg hc]
      cases hraw : Inifile.rawLines text with
      | nil =>
        obtain rfl := rawLines_eq_nil_iff.mp hraw
        rw [if_pos rfl] at hterminated
        rw [if_neg (mt hterminated.mp hc)]
        simp [unlines, Inifile.chomp, hc]
      | cons line lines =>
        have hne : text ≠ [] := fun hnil => by rw [rawLines_eq_nil_iff.mpr hnil] at hraw; cases hraw
        rw [if_neg hne] at hterminated
        have hline : line ≠ [] := ne_nil_of_mem_rawLines (hraw ▸ List.mem_cons_self ..)
        have hchomp : Inifile.chomp (c :: line) = c :: Inifile.chomp line := by
          rw [Inifile.chomp, Inifile.chomp, List.getLast?_cons, List.getLast?_eq_some_getLast hline,
            Option.getD_some, List.dropLast_cons_of_ne_nil hline]
          split <;> rfl
        rw [getLines, hraw, List.map_cons, unlines, List.flatMap_cons] at ih
        rw [if_congr hterminated rfl rfl, List.map_cons, unlines, List.flatMap_cons, hchomp,
          List.cons_append, List.cons_append, ih]
        split <;> rfl

end Awb
