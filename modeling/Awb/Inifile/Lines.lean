import Awb.Builder.Paths

/-! The lines of an ini file, and the regular expressions that `inifile.cpp` and `Inifile.pm`
classify them with. -/

namespace Awb.Inifile

/-- The lines of a text, each with its newline; the last one may have none. -/
def rawLines : Text → List Text
  | [] => []
  | c :: text =>
    if c = '\n' then [c] :: rawLines text
    else match rawLines text with
      | [] => [[c]]
      | line :: lines => (c :: line) :: lines

/-- Without a newline at the end. -/
def chomp (line : Text) : Text := if line.getLast? = some '\n' then line.dropLast else line

/-- Without the last character, whatever it is. -/
def chop (line : Text) : Text := line.dropLast

theorem rawLines_append {line : Text} (h : '\n' ∉ line) (text : Text) :
    rawLines (line ++ '\n' :: text) = (line ++ ['\n']) :: rawLines text := by
  induction line with
  | nil => simp [rawLines]
  | cons c line ih =>
    have hc : c ≠ '\n' := fun he => h (he ▸ List.mem_cons_self ..)
    have hline : '\n' ∉ line := fun hmem => h (List.mem_cons_of_mem _ hmem)
    simp [rawLines, hc, ih hline]

/-- Lines without newlines are read back as they were written. -/
theorem rawLines_unlines {lines : List Text} (h : ∀ l ∈ lines, '\n' ∉ l) :
    rawLines (unlines lines) = lines.map (· ++ ['\n']) := by
  induction lines with
  | nil => rfl
  | cons l lines ih =>
    obtain ⟨hl, hlines⟩ := List.forall_mem_cons.mp h
    rw [unlines, List.flatMap_cons, List.append_assoc, List.singleton_append,
      rawLines_append hl, List.map_cons]
    exact congrArg _ (ih hlines)

@[simp] theorem chomp_append_newline (line : Text) : chomp (line ++ ['\n']) = line := by
  simp [chomp]

@[simp] theorem chop_append_newline (line : Text) : chop (line ++ ['\n']) = line := by
  simp [chop]

/-- A line is a body without newline, ended by one unless it is the last. -/
theorem body_of_mem_rawLines {text : Text} : ∀ line ∈ rawLines text,
    ∃ body, '\n' ∉ body ∧ (line = body ++ ['\n'] ∨ line = body ∧ body ≠ []) := by
  induction text with
  | nil => simp [rawLines]
  | cons c text ih =>
    unfold rawLines
    split
    · rename_i hc
      refine List.forall_mem_cons.mpr ⟨⟨[], by simp, Or.inl (by simp [hc])⟩, ih⟩
    · rename_i hc
      split
      · exact List.forall_mem_singleton.mpr
          ⟨[c], by simpa using fun he : '\n' = c => hc he.symm, Or.inr ⟨rfl, by simp⟩⟩
      · rename_i line lines heq
        rw [heq] at ih
        obtain ⟨⟨body, hbody, hline⟩, hlines⟩ := List.forall_mem_cons.mp ih
        refine List.forall_mem_cons.mpr ⟨⟨c :: body, ?_, ?_⟩, hlines⟩
        · simpa [hbody] using fun he : '\n' = c => hc he.symm
        · rcases hline with rfl | ⟨rfl, -⟩ <;> simp

theorem newline_not_mem_chomp {text line : Text} (h : line ∈ rawLines text) :
    '\n' ∉ chomp line := by
  obtain ⟨body, hbody, rfl | ⟨rfl, -⟩⟩ := body_of_mem_rawLines line h
  · simpa using hbody
  · have hlast : line.getLast? ≠ some '\n' := fun he => hbody (List.mem_of_getLast? he)
    rwa [chomp, if_neg hlast]

/-- `[ \t]` -/
def isBlank (c : Char) : Bool := c = ' ' || c = '\t'

/-- `[A-Za-z0-9_-]` -/
def isItemChar (c : Char) : Bool := c.isAlphanum || c = '_' || c = '-'

/-- `[A-Za-z0-9/()+ :;,_.-]` -/
def isGroupChar (c : Char) : Bool := c.isAlphanum || "/()+ :;,_.-".toList.contains c

/-- `^\[(class*)\]$`: what is in the brackets. -/
def matchGroup : Text → Option Text
  | '[' :: rest =>
    if rest.getLast? = some ']' ∧ rest.dropLast.all isGroupChar then some rest.dropLast else none
  | _ => none

/-- `^(class*) *= *(.*) *$`: the name and the value, which keeps its blanks at the end. -/
def matchItem (line : Text) : Option (Text × Text) :=
  match (line.dropWhile isItemChar).dropWhile (· = ' ') with
  | '=' :: rest => some (line.takeWhile isItemChar, rest.dropWhile (· = ' '))
  | _ => none

/-- `^#include[ \t]+"`: what follows the quote. -/
def matchIncludeStart (line : Text) : Option Text :=
  let start := "#include".toList
  if start.isPrefixOf line then
    let rest := line.drop start.length
    match rest.dropWhile isBlank with
    | '"' :: name => if rest.head?.any isBlank then some name else none
    | _ => none
  else none

inductive LineKind where
  | includes (name : Text)
  | comment
  | blank
  | group (name : Text)
  | item (name value : Text)
  | garbage
  deriving DecidableEq, Repr

namespace LineKind

/-- A line that a reader passes over. -/
def skips : LineKind → Bool
  | .comment | .blank => true
  | _ => false

end LineKind

/-- The files that a reader can open, by a name and the directory it is relative to. -/
structure FileSystem (Dir : Type*) where
  read : Dir → Text → Option Text
  chdir : Dir → Text → Option Dir
  stdin : Text

end Awb.Inifile
