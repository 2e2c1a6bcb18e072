import Awb.Builder.Paths
import Awb.Lib.Nesting

/-! `AwbProtect` writes a script into the list of commands, with semicolons for the ends of its
lines. What Tcl does is modelled for commands of plain words, comments and the stored call itself;
all else that a comment can bring to light is left to a parameter. -/

namespace Awb.Workbench.Protect
open Nesting

/-- A command that is run, by its words. -/
abbrev Command := List Text

/-! ### Tcl -/

def braces : Delims Char := ⟨'{', '}', '\\'⟩

/-- What separates words. -/
def isBlank (c : Char) : Bool := [' ', '\t', '\x0b', '\x0c', '\r'].contains c

/-- What separates commands. -/
def isSep (c : Char) : Bool := c = ';' || c = '\n'

def isSpecial (c : Char) : Bool := ['{', '}', '"', '[', ']', '\\', '$'].contains c

/-- A character of a command of plain words. -/
def isPlain (c : Char) : Bool := !isSpecial c && !isSep c

def wordsOf (text : Text) : Command := (text.splitOnP isBlank).filter (· ≠ [])

/-- What follows the line of a comment. A backslash can keep the next line in the comment. -/
def afterComment : Text → Text
  | [] => []
  | '\\' :: _ :: cs => afterComment cs
  | '\n' :: cs => cs
  | _ :: cs => afterComment cs

theorem length_afterComment (cs : Text) : (afterComment cs).length ≤ cs.length := by
  fun_induction afterComment cs with
  | case1 => exact Nat.le_refl 0
  | case2 c cs ih =>
    rw [List.length_cons, List.length_cons]
    omega
  | case3 cs => exact Nat.le_succ _
  | case4 c cs _ _ ih =>
    rw [List.length_cons]
    omega

theorem length_lt_of_drop {l : Text} {n : ℕ} {c : Char} {rest : Text} (h : l.drop n = c :: rest) :
    rest.length < l.length := by
  have hle := (List.drop_suffix n l).length_le
  rw [h, List.length_cons] at hle
  omega

/-- The commands that the evaluation of a script runs, if it ends without an error. The script of an
`AwbProtect` is evaluated in its turn. For a text that begins with any other command `other` is
asked. -/
def evalScript (other : Text → Option (List Command)) (text : Text) : Option (List Command) :=
  match text with
  | [] => some []
  | c :: cs =>
    if isBlank c || isSep c then evalScript other cs
    else if c = '#' then evalScript other (afterComment cs)
    else
      let body := (c :: cs).takeWhile isPlain
      match _hdrop : (c :: cs).drop body.length with
      | [] => some [wordsOf body]
      | d :: rest =>
        if isSep d then (evalScript other rest).map (wordsOf body :: ·)
        else if d = '{' ∧ wordsOf body = ["AwbProtect".toList] ∧ body.getLast?.any isBlank then
          match _hclose : close braces 0 rest with
          | none => none
          | some (script, after) =>
            match _hnext : after.dropWhile isBlank with
            | [] => evalScript other script
            | e :: next =>
              -- more words are too many arguments
              if isSep e then
                (evalScript other script).bind fun cmds =>
                  (evalScript other next).map (cmds ++ ·)
              else none
        else other (c :: cs)
termination_by text.length
decreasing_by
  · exact Nat.lt_succ_self _
  · exact Nat.lt_succ_of_le (length_afterComment cs)
  · exact length_lt_of_drop _hdrop
  · have hscript := length_of_close _hclose
    have hdrop := length_lt_of_drop _hdrop
    omega
  · have hscript := length_of_close _hclose
    have hdrop := length_lt_of_drop _hdrop
    omega
  · have hscript := length_of_close _hclose
    have hdrop := length_lt_of_drop _hdrop
    have hle : (e :: next).length ≤ after.length := _hnext ▸ (List.dropWhile_suffix _).length_le
    rw [List.length_cons] at hle
    omega

/-- The only element of a list, if it is in braces. -/
def soleElement (list : Text) : Option Text :=
  match list.dropWhile fun c => isBlank c || c = '\n' with
  | '{' :: rest =>
    match close braces 0 rest with
    | some (element, after) =>
      if after.all fun c => isBlank c || c = '\n' then some element else none
    | none => none
  | _ => none

/-! ### The stored element -/

/-- `regsub -all "\n" $script "; "` -/
def regsubNewlines (script : Text) : Text :=
  script.flatMap fun c => if c = '\n' then "; ".toList else [c]

def protectName : Text := "AwbProtect ".toList

/-- What `interface::AwbProtect` appends to `bmCmds`. -/
def awbProtect (script : Text) : Text :=
  '{' :: protectName ++ '{' :: regsubNewlines script ++ ['}', '}', '\n']

inductive Line
  | blank (text : Text) (blank : text.all isBlank = true)
  | command (text : Text) (plain : text.all isPlain = true)
      (start : ∃ c ∈ (text.dropWhile isBlank).head?, c ≠ '#')
  | comment (text : Text) (line : '\n' ∉ text) (start : (text.dropWhile isBlank).head? = some '#')

namespace Line

def text : Line → Text
  | blank text _ => text
  | command text _ _ => text
  | comment text _ _ => text

def isComment : Line → Bool
  | comment .. => true
  | _ => false

def commands : Line → List Command
  | command text _ _ => [wordsOf text]
  | _ => []

end Line

def scriptOf (lines : List Line) : Text := ['\n'].intercalate (lines.map Line.text)

def commandsOf (lines : List Line) : List Command := lines.flatMap Line.commands

/-- One element is stored, and its evaluation runs exactly the commands of the script. -/
def RunsExactly (other : Text → Option (List Command)) (lines : List Line) : Prop :=
  ∃ element, soleElement (awbProtect (scriptOf lines)) = some element ∧
    evalScript other element = some (commandsOf lines)

/-- The braces of a text are in pairs. -/
def Nested (text : Text) : Prop := close braces 0 (text ++ ['}']) = some (text, [])

/-- The commands of the lines behind the first comment. -/
def behindComment (lines : List Line) : List Command :=
  commandsOf (lines.dropWhile fun line => !line.isComment)

/-- When all commands are run. In the second case, by chance, a brace in a comment ends the script,
and behind it there is nothing but the commands that are left, in front of them a semicolon. -/
inductive AllRun (other : Text → Option (List Command)) (lines : List Line) : Prop
  | nested (hnested : Nested (regsubNewlines (scriptOf lines))) (hbehind : behindComment lines = [])
  | cut (front after rest : Text)
      (hcut : close braces 0 (regsubNewlines (scriptOf lines) ++ ['}']) = some (front, after))
      (hafter : after ≠ []) (hnested : Nested after)
      (hsep : after.dropWhile isBlank = ';' :: rest)
      (hrest : evalScript other rest = some (behindComment lines))

/-! ### What is evaluated -/

section eval
variable {other : Text → Option (List Command)} {text rest blanks script after : Text} {c : Char}

theorem evalScript_nil : evalScript other [] = some [] := by rw [evalScript]

theorem evalScript_skip (h : (isBlank c || isSep c) = true) (cs : Text) :
    evalScript other (c :: cs) = evalScript other cs := by
  rw [evalScript]
  exact if_pos h

theorem evalScript_blanks (h : blanks.all isBlank = true) (text : Text) :
    evalScript other (blanks ++ text) = evalScript other text := by
  induction blanks with
  | nil => rfl
  | cons c blanks ih =>
    obtain ⟨hc, hblanks⟩ := Bool.and_eq_true_iff.mp h
    rw [List.cons_append, evalScript_skip (by rw [hc, Bool.true_or]), ih hblanks]

theorem afterComment_eq_nil (h : '\n' ∉ text) : afterComment text = [] := by
  fun_induction afterComment text with
  | case1 => rfl
  | case2 c cs ih => exact ih fun hmem => h (by simp [hmem])
  | case3 cs => exact absurd List.mem_cons_self h
  | case4 c cs _ _ ih => exact ih fun hmem => h (List.mem_cons_of_mem _ hmem)

theorem evalScript_comment (h : '\n' ∉ text) : evalScript other ('#' :: text) = some [] := by
  rw [evalScript]
  rw [if_neg (by decide), if_pos rfl, afterComment_eq_nil h, evalScript_nil]

/-- The first character of a command. -/
def Starts (c : Char) : Prop := isBlank c = false ∧ isPlain c = true ∧ c ≠ '#'

theorem isSep_of_isPlain (h : isPlain c = true) : isSep c = false := by
  have hsep := (Bool.and_eq_true_iff.mp h).2
  simpa using hsep

theorem takeWhile_isPlain {d : Char} (htext : text.all isPlain = true) (hd : isPlain d = false)
    (rest : Text) : (text ++ d :: rest).takeWhile isPlain = text := by
  rw [List.takeWhile_append_of_pos (List.all_eq_true.mp htext),
    List.takeWhile_cons_of_neg (by simp [hd]), List.append_nil]

theorem evalScript_plain {cs : Text} (hc : Starts c) (hcs : (c :: cs).all isPlain = true) :
    evalScript other (c :: cs) = some [wordsOf (c :: cs)] := by
  have htake : (c :: cs).takeWhile isPlain = c :: cs :=
    List.takeWhile_eq_self_iff.mpr (List.all_eq_true.mp hcs)
  rw [evalScript]
  simp only [hc.1, isSep_of_isPlain hc.2.1, Bool.or_self, Bool.false_eq_true, if_false, hc.2.2]
  split
  · rw [htake]
  · rename_i d rest h
    rw [htake, List.drop_length] at h
    cases h

/-- The rest of a text that begins with a plain part. -/
theorem evalScript_body {d : Char} {cs : Text} (hc : Starts c) (hcs : (c :: cs).all isPlain = true)
    (hd : isPlain d = false) (rest : Text) : evalScript other (c :: cs ++ d :: rest) =
      if isSep d then (evalScript other rest).map (wordsOf (c :: cs) :: ·)
      else if d = '{' ∧ wordsOf (c :: cs) = ["AwbProtect".toList] ∧
          (c :: cs).getLast?.any isBlank then
        match close braces 0 rest with
        | none => none
        | some (script, after) =>
          match after.dropWhile isBlank with
          | [] => evalScript other script
          | e :: next =>
            if isSep e then
              (evalScript other script).bind fun cmds => (evalScript other next).map (cmds ++ ·)
            else none
      else other (c :: cs ++ d :: rest) := by
  have htake := takeWhile_isPlain hcs hd rest
  have hdrop : (c :: cs ++ d :: rest).drop (c :: cs).length = d :: rest := List.drop_left
  rw [List.cons_append] at htake hdrop ⊢
  rw [evalScript]
  simp only [hc.1, isSep_of_isPlain hc.2.1, Bool.or_self, Bool.false_eq_true, if_false, hc.2.2]
  split
  · rename_i h
    rw [htake, hdrop] at h
    cases h
  · rename_i d' rest' h
    rw [htake, hdrop] at h
    obtain ⟨rfl, rfl⟩ := List.cons.inj h
    rw [htake]
    refine if_congr Iff.rfl rfl (if_congr Iff.rfl ?_ rfl)
    split
    · rename_i hclose
      rw [hclose]
    · rename_i script after hclose
      rw [hclose]
      dsimp only
      split
      · rename_i hnext
        rw [hnext]
      · rename_i e next hnext
        rw [hnext]

theorem evalScript_command {cs : Text} (hc : Starts c) (hcs : (c :: cs).all isPlain = true)
    (rest : Text) : evalScript other (c :: cs ++ ';' :: rest) =
      (evalScript other rest).map (wordsOf (c :: cs) :: ·) := by
  rw [evalScript_body hc hcs (by decide), if_pos (by decide)]

/-- The call that is stored. -/
def callOf (script : Text) : Text := protectName ++ '{' :: script

theorem evalScript_callOf (text : Text) : evalScript other (callOf text) =
    match close braces 0 text with
    | none => none
    | some (script, after) =>
      match after.dropWhile isBlank with
      | [] => evalScript other script
      | e :: next =>
        if isSep e then
          (evalScript other script).bind fun cmds => (evalScript other next).map (cmds ++ ·)
        else none := by
  obtain ⟨cs, hname, hplain, hword, hlast⟩ : ∃ cs, protectName = 'A' :: cs ∧
      ('A' :: cs).all isPlain = true ∧ wordsOf ('A' :: cs) = ["AwbProtect".toList] ∧
        ('A' :: cs).getLast?.any isBlank = true :=
    ⟨"wbProtect ".toList, by decide, by decide, by decide +kernel, by decide⟩
  have hstarts : Starts 'A' := ⟨by decide, by decide, by decide⟩
  have hbody := @evalScript_body other 'A' '{' cs hstarts hplain (by decide) text
  rw [if_neg (by decide), if_pos ⟨rfl, hword, hlast⟩] at hbody
  have hcall : callOf text = 'A' :: cs ++ '{' :: text := congrArg (· ++ '{' :: text) hname
  rw [hcall]
  exact hbody

end eval

/-! ### The lines of a script -/

section lines
variable {other : Text → Option (List Command)} {lines : List Line} {text blanks : Text}

theorem wordsOf_blanks (h : blanks.all isBlank = true) (text : Text) :
    wordsOf (blanks ++ text) = wordsOf text := by
  induction blanks with
  | nil => rfl
  | cons c blanks ih =>
    obtain ⟨hc, hblanks⟩ := Bool.and_eq_true_iff.mp h
    rw [← ih hblanks, wordsOf, List.cons_append, List.splitOnP_cons_eq_if_modifyHead, if_pos hc,
      List.filter_cons_of_neg (by simp), wordsOf]

theorem newline_notMem_text (line : Line) : '\n' ∉ line.text := by
  cases line with
  | blank text hblank =>
    intro hmem
    exact absurd (List.all_eq_true.mp hblank _ hmem) (by decide)
  | command text hplain hstart =>
    intro hmem
    exact absurd (List.all_eq_true.mp hplain _ hmem) (by decide)
  | comment text hline hstart => exact hline

/-- The lines with semicolons between them. -/
def joined : List Line → Text
  | [] => []
  | [line] => line.text
  | line :: lines => line.text ++ ';' :: ' ' :: joined lines

theorem regsubNewlines_of_notMem (h : '\n' ∉ text) : regsubNewlines text = text := by
  rw [regsubNewlines]
  have hcongr : text.flatMap (fun c => if c = '\n' then "; ".toList else [c]) =
      text.flatMap fun c => [c] :=
    List.flatMap_congr fun c hc => if_neg fun heq : c = '\n' => h (heq ▸ hc)
  rw [hcongr, List.flatMap_singleton']

theorem regsubNewlines_scriptOf (lines : List Line) :
    regsubNewlines (scriptOf lines) = joined lines := by
  induction lines with
  | nil => rfl
  | cons line lines ih =>
    have htext := regsubNewlines_of_notMem (newline_notMem_text line)
    cases lines with
    | nil =>
      rw [scriptOf, List.map_singleton, List.intercalate_singleton, htext]
      rfl
    | cons next lines =>
      have hscript : scriptOf (line :: next :: lines) =
          line.text ++ '\n' :: scriptOf (next :: lines) := by
        rw [scriptOf, List.map_cons, List.map_cons, List.intercalate_cons_cons, List.append_assoc]
        rfl
      rw [hscript, regsubNewlines, List.flatMap_append, List.flatMap_cons, if_pos rfl]
      change regsubNewlines line.text ++ (_ ++ regsubNewlines (scriptOf (next :: lines))) = _
      rw [htext, ih]
      rfl

/-- The characters that do not open, close or escape. -/
def Clean (text : Text) : Prop := ∀ c ∈ text, c ≠ '{' ∧ c ≠ '}' ∧ c ≠ '\\'

theorem clean_of_not_isComment {line : Line} (h : line.isComment = false) : Clean line.text := by
  intro c hc
  cases line with
  | blank text hblank =>
    have hc' := List.all_eq_true.mp hblank c hc
    refine ⟨?_, ?_, ?_⟩ <;>
    · rintro rfl
      exact absurd hc' (by decide)
  | command text hplain hstart =>
    have hc' := List.all_eq_true.mp hplain c hc
    refine ⟨?_, ?_, ?_⟩ <;>
    · rintro rfl
      exact absurd hc' (by decide)
  | comment text hline hstart => cases h

/-- A command behind its blanks. -/
theorem Line.command_eq {text : Text} (hplain : text.all isPlain = true)
    (hstart : ∃ c ∈ (text.dropWhile isBlank).head?, c ≠ '#') :
    ∃ blanks c cs, text = blanks ++ c :: cs ∧ blanks.all isBlank = true ∧ Starts c ∧
      (c :: cs).all isPlain = true := by
  obtain ⟨c, hc, hne⟩ := hstart
  obtain ⟨cs, hcs⟩ := List.head?_eq_some_iff.mp hc
  have hsplit : text.takeWhile isBlank ++ c :: cs = text :=
    hcs ▸ List.takeWhile_append_dropWhile
  have hblank : isBlank c = false := by
    have hnot := List.head?_dropWhile_not isBlank text
    rw [hc] at hnot
    simpa using hnot
  have hall : (c :: cs).all isPlain = true := by
    refine List.all_eq_true.mpr fun d hd => List.all_eq_true.mp hplain d ?_
    exact hsplit ▸ List.mem_append_right _ hd
  exact ⟨_, c, cs, hsplit.symm, List.all_takeWhile,
    ⟨hblank, (Bool.and_eq_true_iff.mp hall).1, hne⟩, hall⟩

/-- A line that is the last one. -/
theorem evalScript_line {line : Line} (h : line.isComment = false) :
    evalScript other line.text = some line.commands := by
  cases line with
  | blank text hblank =>
    have heval := @evalScript_blanks other text hblank []
    rwa [List.append_nil, evalScript_nil] at heval
  | command text hplain hstart =>
    obtain ⟨blanks, c, cs, htext, hblanks, hc, hcs⟩ := Line.command_eq hplain hstart
    change evalScript other text = some [wordsOf text]
    rw [htext, evalScript_blanks hblanks, evalScript_plain hc hcs, wordsOf_blanks hblanks]
  | comment text hline hstart => cases h

/-- A line in front of others. -/
theorem evalScript_line_append {line : Line} (h : line.isComment = false) (rest : Text) :
    evalScript other (line.text ++ ';' :: ' ' :: rest) =
      (evalScript other rest).map (line.commands ++ ·) := by
  have hblank : evalScript other (' ' :: rest) = evalScript other rest :=
    evalScript_skip (by decide) rest
  cases line with
  | blank text hblanks =>
    have hsep : evalScript other (';' :: ' ' :: rest) = evalScript other (' ' :: rest) :=
      evalScript_skip (by decide) _
    change evalScript other (text ++ ';' :: ' ' :: rest) = _
    rw [evalScript_blanks hblanks, hsep, hblank]
    change _ = (evalScript other rest).map fun cmds => [] ++ cmds
    simp
  | command text hplain hstart =>
    obtain ⟨blanks, c, cs, htext, hblanks, hc, hcs⟩ := Line.command_eq hplain hstart
    change evalScript other (text ++ ';' :: ' ' :: rest) =
      (evalScript other rest).map ([wordsOf text] ++ ·)
    rw [htext, List.append_assoc, evalScript_blanks hblanks, evalScript_command hc hcs, hblank,
      wordsOf_blanks hblanks]
    rfl
  | comment text hline hstart => cases h

theorem newline_notMem_joined (lines : List Line) : '\n' ∉ joined lines := by
  fun_induction joined lines with
  | case1 => exact List.not_mem_nil
  | case2 line => exact newline_notMem_text line
  | case3 line lines _ ih =>
    intro hmem
    rcases List.mem_append.mp hmem with hmem | hmem
    · exact newline_notMem_text line hmem
    · simp only [List.mem_cons] at hmem
      rcases hmem with h | h | h
      · exact absurd h (by decide)
      · exact absurd h (by decide)
      · exact ih h

theorem Clean.append {front back : Text} (hfront : Clean front) (hback : Clean back) :
    Clean (front ++ back) := fun c hc =>
  (List.mem_append.mp hc).elim (hfront c) (hback c)

theorem Clean.close {front : Text} (h : Clean front) (text : Text) (depth : ℕ) :
    close braces depth (front ++ text) = putFront front (close braces depth text) :=
  @close_clean _ _ braces depth front h text

theorem clean_separator : Clean [';', ' '] := by
  intro c hc
  simp only [List.mem_cons, List.not_mem_nil, or_false] at hc
  rcases hc with rfl | rfl <;> decide

/-- Without a comment all commands are evaluated. -/
theorem joined_of_noComment (h : ∀ line ∈ lines, line.isComment = false) :
    Clean (joined lines) ∧ evalScript other (joined lines) = some (commandsOf lines) := by
  fun_induction joined lines with
  | case1 => exact ⟨fun c hc => (List.not_mem_nil hc).elim, evalScript_nil⟩
  | case2 line =>
    have hline := h line List.mem_cons_self
    exact ⟨clean_of_not_isComment hline, by
      rw [evalScript_line hline, commandsOf, List.flatMap_singleton]⟩
  | case3 line lines hne ih =>
    obtain ⟨hline, hlines⟩ := List.forall_mem_cons.mp h
    obtain ⟨hclean, heval⟩ := ih hlines
    refine ⟨(clean_of_not_isComment hline).append (clean_separator.append hclean), ?_⟩
    rw [evalScript_line_append hline, heval]
    rfl

def commandsInFront (lines : List Line) : List Command :=
  commandsOf (lines.takeWhile fun line => !line.isComment)

theorem commandsInFront_append (lines : List Line) :
    commandsInFront lines ++ behindComment lines = commandsOf lines := by
  rw [commandsInFront, behindComment, commandsOf, commandsOf, ← List.flatMap_append,
    List.takeWhile_append_dropWhile, commandsOf]

/-- Behind the first comment nothing is evaluated. -/
theorem joined_of_comment (h : ∃ line ∈ lines, line.isComment = true) :
    ∃ front back, joined lines = front ++ '#' :: back ∧ Clean front ∧
      ∀ back', '\n' ∉ back' →
        evalScript other (front ++ '#' :: back') = some (commandsInFront lines) := by
  induction lines with
  | nil => simp at h
  | cons line lines ih =>
    cases hline : line.isComment with
    | true =>
      have hnone : commandsInFront (line :: lines) = [] := by
        rw [commandsInFront, List.takeWhile_cons_of_neg (by simp [hline])]
        rfl
      have hjoined : ∃ rest, joined (line :: lines) = line.text ++ rest := by
        cases lines with
        | nil => exact ⟨[], (List.append_nil _).symm⟩
        | cons next lines => exact ⟨_, rfl⟩
      obtain ⟨rest, hjoined⟩ := hjoined
      cases line with
      | blank | command => cases hline
      | comment text hnewline hstart =>
        obtain ⟨cs, hcs⟩ := List.head?_eq_some_iff.mp hstart
        have hsplit : text.takeWhile isBlank ++ '#' :: cs = text :=
          hcs ▸ List.takeWhile_append_dropWhile
        have hblanks : (text.takeWhile isBlank).all isBlank = true := List.all_takeWhile
        refine ⟨text.takeWhile isBlank, cs ++ rest, ?_, ?_, fun back' hback' => ?_⟩
        · rw [hjoined, ← List.cons_append, ← List.append_assoc, hsplit]
          rfl
        · exact @clean_of_not_isComment (.blank _ hblanks) rfl
        · rw [evalScript_blanks hblanks, evalScript_comment hback', hnone]
    | false =>
      have hlines : ∃ line ∈ lines, line.isComment = true := by
        obtain ⟨l, hl, hcomment⟩ := h
        rcases List.mem_cons.mp hl with rfl | hl
        · rw [hline] at hcomment
          cases hcomment
        · exact ⟨l, hl, hcomment⟩
      obtain ⟨front, back, hjoined, hclean, heval⟩ := ih hlines
      have hcons : joined (line :: lines) = line.text ++ ';' :: ' ' :: joined lines := by
        cases lines with
        | nil => simp at hlines
        | cons next lines => rfl
      refine ⟨line.text ++ ([';', ' '] ++ front), back, ?_, ?_, fun back' hback' => ?_⟩
      · rw [hcons, hjoined, List.append_assoc, List.append_assoc]
        rfl
      · exact (clean_of_not_isComment hline).append (clean_separator.append hclean)
      · have heval' := heval back' hback'
        rw [List.append_assoc, List.append_assoc]
        change evalScript other (line.text ++ ';' :: ' ' :: (front ++ '#' :: back')) = _
        rw [evalScript_line_append hline, heval', commandsInFront, commandsInFront,
          List.takeWhile_cons_of_pos (by simp [hline])]
        rfl

/-- The script that the stored call has ends behind the first comment, if there is one. -/
theorem evalScript_front {front after : Text}
    (h : close braces 0 (joined lines ++ ['}']) = some (front, after)) :
    evalScript other front = some (commandsInFront lines) := by
  by_cases hcomment : ∃ line ∈ lines, line.isComment = true
  · obtain ⟨head, back, hjoined, hclean, heval⟩ :=
      @joined_of_comment other lines hcomment
    have hnewline : '\n' ∉ back ++ ['}'] := by
      have hnot := newline_notMem_joined lines
      rw [hjoined] at hnot
      intro hmem
      rcases List.mem_append.mp hmem with hmem | hmem
      · exact hnot (List.mem_append_right _ (List.mem_cons_of_mem _ hmem))
      · exact absurd (List.mem_singleton.mp hmem) (by decide)
    have hhead : Clean (head ++ ['#']) := hclean.append fun c hc => by
      obtain rfl := List.mem_singleton.mp hc
      decide
    have hsplit : joined lines ++ ['}'] = head ++ ['#'] ++ (back ++ ['}']) := by
      rw [hjoined, List.append_assoc, List.append_assoc]
      rfl
    rw [hsplit, hhead.close] at h
    obtain ⟨y, hy, rfl⟩ := putFront_eq_some_iff.mp h
    rw [List.append_assoc]
    refine heval y fun hmem => hnewline ?_
    rw [eq_of_close hy]
    exact List.mem_append_left _ hmem
  · have hnone : ∀ line ∈ lines, line.isComment = false := fun line hline => by
      have hnot : ¬ line.isComment = true := fun htrue => hcomment ⟨line, hline, htrue⟩
      simpa using hnot
    obtain ⟨hclean, heval⟩ := @joined_of_noComment other lines hnone
    rw [hclean.close] at h
    obtain ⟨y, hy, rfl⟩ := putFront_eq_some_iff.mp h
    have hclose : close braces 0 ['}'] = some ([], []) :=
      close_closer_zero (by decide) (by decide) []
    obtain ⟨rfl, -⟩ := Prod.mk.inj (Option.some.inj (hclose.symm.trans hy))
    have htake : lines.takeWhile (fun line => !line.isComment) = lines :=
      List.takeWhile_eq_self_iff.mpr fun line hline => by simp [hnone line hline]
    rw [List.append_nil, heval, commandsInFront, htake]

end lines

/-! ### The element -/

section element
variable {other : Text → Option (List Command)} {lines : List Line} {text front after : Text}

theorem nested_nil : Nested [] := close_closer_zero (by decide) (by decide) []

theorem eq_of_append_closer {a b c : Text} (ha : '}' ∉ a) (h : '}' :: a = c ++ '}' :: b) :
    c = [] ∧ a = b := by
  cases c with
  | nil => exact ⟨rfl, (List.cons.inj h).2⟩
  | cons d c =>
    obtain ⟨-, rfl⟩ := List.cons.inj h
    simp at ha

/-- The last closing brace is the same one. -/
theorem append_closer_inj {a b x y : Text} (ha : '}' ∉ a) (hb : '}' ∉ b)
    (h : x ++ '}' :: a = y ++ '}' :: b) : y = x ∧ b = a := by
  rcases List.append_eq_append_iff.mp h with ⟨c, rfl, hc⟩ | ⟨c, rfl, hc⟩
  · obtain ⟨rfl, rfl⟩ := eq_of_append_closer ha hc
    exact ⟨List.append_nil x, rfl⟩
  · obtain ⟨rfl, rfl⟩ := eq_of_append_closer hb hc
    exact ⟨(List.append_nil y).symm, rfl⟩

/-- A text in braces is a list of one element if its own braces are in pairs. -/
theorem soleElement_eq_some_iff {element : Text} :
    soleElement ('{' :: text ++ ['}', '\n']) = some element ↔ element = text ∧ Nested text := by
  have hskip : ('{' :: text ++ ['}', '\n']).dropWhile (fun c => isBlank c || c = '\n') =
      '{' :: (text ++ ['}', '\n']) := List.dropWhile_cons_of_neg (by decide)
  have hpair : text ++ ['}', '\n'] = text ++ ['}'] ++ ['\n'] := by simp
  rw [soleElement, hskip]
  constructor
  · intro h
    cases hclose : close braces 0 (text ++ ['}', '\n']) with
    | none => simp [hclose] at h
    | some cut =>
      obtain ⟨x, rest⟩ := cut
      simp only [hclose, Option.ite_none_right_eq_some, Option.some.injEq] at h
      obtain ⟨hspace, rfl⟩ := h
      have hrest : '}' ∉ rest := fun hmem =>
        absurd (List.all_eq_true.mp hspace _ hmem) (by decide)
      have heq := eq_of_close hclose
      obtain ⟨rfl, rfl⟩ := append_closer_inj (by decide) hrest heq
      exact ⟨rfl, close_front hclose⟩
  · rintro ⟨rfl, hnested⟩
    have hclose : close braces 0 (element ++ ['}', '\n']) = some (element, ['\n']) :=
      hpair ▸ close_append hnested ['\n']
    simp only [hclose]
    rfl

theorem nested_callOf (h : close braces 0 text = some (front, after)) :
    Nested (callOf text) ↔ Nested after := by
  have hname : Clean protectName := by
    intro c hc
    have hplain : protectName.all (fun c => c ≠ '{' && c ≠ '}' && c ≠ '\\') = true := by decide
    simpa [and_assoc] using List.all_eq_true.mp hplain c hc
  have hcall : callOf text ++ ['}'] = protectName ++ '{' :: (text ++ ['}']) := by
    rw [← List.cons_append, ← List.append_assoc]
    rfl
  have hopen : close braces 0 ('{' :: (text ++ ['}'])) =
      putFront ['{'] (close braces 1 (text ++ ['}'])) := close_opener (by decide) _
  have hinner : close braces 1 (text ++ ['}']) =
      putFront (front ++ ['}']) (close braces 0 (after ++ ['}'])) :=
    close_add (close_append h ['}']) 0
  have hclose : close braces 0 (callOf text ++ ['}']) =
      putFront (protectName ++ (['{'] ++ (front ++ ['}'])))
        (close braces 0 (after ++ ['}'])) := by
    rw [hcall, hname.close, hopen, hinner, putFront_putFront, putFront_putFront,
      List.append_assoc]
  have hcut : callOf text = protectName ++ (['{'] ++ (front ++ ['}'])) ++ after := by
    rw [callOf, eq_of_close h]
    simp [braces]
  unfold Nested
  rw [hclose, putFront_eq_some_iff]
  constructor
  · rintro ⟨y, hy, heq⟩
    rw [hcut] at heq
    rwa [List.append_cancel_left heq] at hy
  · intro hafter
    exact ⟨after, hafter, hcut.symm⟩

/-- The stored text is the call in braces. -/
theorem awbProtect_eq (lines : List Line) : awbProtect (scriptOf lines) =
    '{' :: callOf (joined lines ++ ['}']) ++ ['}', '\n'] := by
  rw [awbProtect, regsubNewlines_scriptOf, callOf]
  simp

theorem dropWhile_isBlank_ne_nil (hafter : after ≠ [])
    (htext : joined lines ++ ['}'] = front ++ '}' :: after) : after.dropWhile isBlank ≠ [] := by
  intro hnil
  have hlast : (joined lines ++ ['}']).getLast? = after.getLast? := by
    rw [htext, List.getLast?_append_of_ne_nil _ (List.cons_ne_nil _ _),
      List.getLast?_cons_of_ne_nil hafter]
  rw [List.getLast?_concat] at hlast
  have hbrace : isBlank '}' = true :=
    List.dropWhile_eq_nil_iff.mp hnil '}' (List.mem_of_getLast? hlast.symm)
  exact absurd hbrace (by decide)

/-- What the evaluation of the stored call runs. -/
theorem evalScript_stored
    (h : close braces 0 (joined lines ++ ['}']) = some (front, after)) (hafter : after ≠ [])
    {cmds : List Command} :
    evalScript other (callOf (joined lines ++ ['}'])) = some (commandsInFront lines ++ cmds) ↔
      ∃ rest, after.dropWhile isBlank = ';' :: rest ∧ evalScript other rest = some cmds := by
  have htext := eq_of_close h
  have heval : evalScript other front = some (commandsInFront lines) := evalScript_front h
  rw [evalScript_callOf, h]
  dsimp only
  cases hnext : after.dropWhile isBlank with
  | nil => exact absurd hnext (dropWhile_isBlank_ne_nil hafter htext)
  | cons e next =>
    have hne : e ≠ '\n' := by
      rintro rfl
      have hmem : '\n' ∈ after :=
        (List.dropWhile_suffix isBlank).subset (hnext ▸ List.mem_cons_self)
      have hall : '\n' ∈ joined lines ++ ['}'] :=
        htext ▸ List.mem_append_right _ (List.mem_cons_of_mem _ hmem)
      rcases List.mem_append.mp hall with hall | hall
      · exact newline_notMem_joined lines hall
      · exact absurd (List.mem_singleton.mp hall) (by decide)
    dsimp only
    by_cases hsep : isSep e = true
    · obtain rfl : e = ';' := by simpa [isSep, hne] using hsep
      rw [if_pos hsep, heval, Option.bind_some, Option.map_eq_some_iff]
      simp only [List.append_cancel_left_eq, exists_eq_right, List.cons.injEq, true_and,
        exists_eq_left']
    · rw [if_neg hsep]
      refine iff_of_false (by simp) ?_
      rintro ⟨rest, heq, -⟩
      obtain ⟨rfl, -⟩ := List.cons.inj heq
      exact hsep (by decide)

theorem runsExactly_iff_stored : RunsExactly other lines ↔
    Nested (callOf (joined lines ++ ['}'])) ∧
      evalScript other (callOf (joined lines ++ ['}'])) =
        some (commandsInFront lines ++ behindComment lines) := by
  unfold RunsExactly
  simp only [awbProtect_eq, soleElement_eq_some_iff, and_assoc, exists_eq_left]
  rw [commandsInFront_append]

/-- With braces in pairs the script is stored as a whole. -/
theorem runsExactly_of_nested (h : Nested (joined lines)) :
    RunsExactly other lines ↔ behindComment lines = [] := by
  have heval : evalScript other (callOf (joined lines ++ ['}'])) =
      some (commandsInFront lines) := by
    rw [evalScript_callOf, h]
    exact evalScript_front h
  rw [runsExactly_iff_stored, nested_callOf h, heval, Option.some_inj, List.self_eq_append_right]
  exact and_iff_right nested_nil

theorem runsExactly_iff (other : Text → Option (List Command)) (lines : List Line) :
    RunsExactly other lines ↔ AllRun other lines := by
  have hjoined := regsubNewlines_scriptOf lines
  cases hclose : close braces 0 (joined lines ++ ['}']) with
  | none =>
    refine iff_of_false ?_ fun h => ?_
    · rw [runsExactly_iff_stored]
      rintro ⟨-, heval⟩
      rw [evalScript_callOf, hclose] at heval
      cases heval
    · cases h with
      | nested hnested =>
        rw [hjoined, Nested, hclose] at hnested
        cases hnested
      | cut front after rest hcut =>
        rw [hjoined, hclose] at hcut
        cases hcut
  | some cut =>
    obtain ⟨front, after⟩ := cut
    by_cases hafter : after = []
    · subst hafter
      obtain rfl : front = joined lines := (List.append_inj_left' (eq_of_close hclose) rfl).symm
      rw [runsExactly_of_nested hclose]
      constructor
      · intro hbehind
        exact .nested (by rw [hjoined]; exact hclose) hbehind
      · intro h
        cases h with
        | nested hnested hbehind => exact hbehind
        | cut front after rest hcut hafter =>
          rw [hjoined, hclose] at hcut
          exact absurd (Prod.mk.inj (Option.some.inj hcut)).2.symm hafter
    · rw [runsExactly_iff_stored, nested_callOf hclose, evalScript_stored hclose hafter]
      constructor
      · rintro ⟨hnested, rest, hsep, hrest⟩
        exact .cut front after rest (by rw [hjoined]; exact hclose) hafter hnested hsep hrest
      · intro h
        cases h with
        | nested hnested hbehind =>
          rw [hjoined, Nested, hclose] at hnested
          exact absurd (Prod.mk.inj (Option.some.inj hnested)).2 hafter
        | cut front' after' rest hcut hafter' hnested hsep hrest =>
          rw [hjoined, hclose] at hcut
          obtain ⟨rfl, rfl⟩ := Prod.mk.inj (Option.some.inj hcut)
          exact ⟨hnested, rest, hsep, hrest⟩

/-- A command behind a comment. -/
def commentFirst : List Line :=
  [.comment "# state".toList (by decide) (by decide),
    .command "PmState".toList (by decide) ⟨'P', by decide, by decide⟩]

/-- The comment hides the command; no other command is met. -/
theorem not_runsExactly_commentFirst : ¬ RunsExactly (fun _ => none) commentFirst := by
  have hnested : Nested (joined commentFirst) := by
    unfold Nested
    decide +kernel
  have hbehind : behindComment commentFirst = [["PmState".toList]] := by decide +kernel
  rw [runsExactly_of_nested hnested, hbehind]
  exact List.cons_ne_nil _ _

end element

end Awb.Workbench.Protect
