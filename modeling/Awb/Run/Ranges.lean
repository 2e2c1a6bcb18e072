import Awb.Lib.Substitution
import Awb.Run.Experiments

/-! The experiments of a line in which parameters have ranges: one for each choice of values. -/

namespace Awb.Run.Experiments

open Substitution (substituteFirst)

/-! ### Integers -/

/-- The integers with which Perl computes exactly. -/
def Fits (n : ℤ) : Prop := -2 ^ 63 ≤ n ∧ n < 2 ^ 64

def naturalOf (digits : Text) : Option ℕ :=
  if digits ≠ [] ∧ digits.all Char.isDigit then some (Nat.ofDigitChars 10 digits 0) else none

/-- The integer that a text spells, with or without a sign. -/
def integerOf : Text → Option ℤ
  | '-' :: digits => (naturalOf digits).map fun n => -Int.ofNat n
  | '+' :: digits => (naturalOf digits).map Int.ofNat
  | digits => (naturalOf digits).map Int.ofNat

def decimal (n : ℤ) : Text := (toString n).toList

/-! ### What Perl does -/

def isName (pname : Text) : Bool := pname ≠ [] && pname.all isWordChar

def isNumber (pname : Text) : Bool := pname ≠ [] && pname.all Char.isDigit

def reference (pname : Text) : Text := '$' :: '{' :: pname ++ ['}']

/-- The numbers of Perl, of which those that are integers of 64 bits are known, and its patterns
`\${$pname}`. If the name is a number, the braces are a quantifier of the dollar; the program dies
of one that is not allowed. -/
structure Perl where
  Number : Type
  number : Text → Number
  numberText : Number → Text
  le : Number → Number → Bool
  add : Number → Number → Number
  int : ℤ → Number
  number_spelled : ∀ text n, integerOf text = some n → Fits n → number text = int n
  numberText_int : ∀ n, Fits n → numberText (int n) = decimal n
  le_int : ∀ m n, Fits m → Fits n → le (int m) (int n) = decide (m ≤ n)
  add_int : ∀ m n, Fits m → Fits n → Fits (m + n) → add (int m) (int n) = int (m + n)
  /-- `s/\${$pname}/$i/` -/
  substitute : Text → Text → Text → Option Text
  quantifier : Text → Option ℕ
  quantifier_decimal : ∀ n : ℕ, n < 32767 → quantifier (decimal n) = some n
  substitute_name : ∀ pname i name, isName pname → isNumber pname = false →
    substitute pname i name = some ((substituteFirst (reference pname) i name).getD name)
  substitute_number : ∀ pname i name, isNumber pname → substitute pname i name =
    (quantifier pname).map fun n => (substituteFirst (List.replicate n '$') i name).getD name

/-- `(.*)` and what follows it in a pattern: as much as possible is taken. -/
def upTo {β : Type} (mark : Text) (behind : Text → Option β) : Text → Option (Text × β)
  | [] => none
  | c :: cs =>
    match upTo mark behind cs with
    | some (before, found) => some (c :: before, found)
    | none =>
      if mark.isPrefixOf (c :: cs) then (behind ((c :: cs).drop mark.length)).map (([], ·))
      else none

/-- `(.*)\]` -/
def closed : Text → Option (Text × Unit) := upTo [']'] fun _ => some ()

/-- `/(.*)=\[(.*);(.*);(.*)\]/` -/
def rangeMatch : Text → Option (Text × Text × Text × Text × Unit) :=
  upTo ['=', '['] (upTo [';'] (upTo [';'] closed))

/-- `/(.*)=\[(.*)\]/` -/
def listMatch : Text → Option (Text × Text × Unit) := upTo ['=', '['] closed

/-- `/\${.*}/` -/
def isUnsubstituted (name : Text) : Bool :=
  name.tails.any fun rest => ['$', '\x7b'].isPrefixOf rest && (rest.drop 2).contains '}'

/-! ### The experiments of a line -/

namespace Perl
variable (perl : Perl)

/-- The values of `$i` in the loop, if it ends. -/
def steps (last inc : perl.Number) : ℕ → Text → perl.Number → Option (List Text)
  | 0, _, _ => none
  | fuel + 1, i, n =>
    if perl.le n last then
      let next := perl.add n inc
      (steps last inc fuel (perl.numberText next) next).map (i :: ·)
    else some []

def exps (fuel : ℕ) : Text → Text → List Text → Option (List Text)
  | name, line, [] => if isUnsubstituted name then none else some [name ++ ' ' :: line]
  | name, line, firstparam :: params =>
    let substituted := fun pname (values : List Text) =>
      (values.mapM fun i => (perl.substitute pname i name).bind fun newname =>
        exps fuel newname (line ++ ' ' :: pname ++ '=' :: i) params).map List.flatten
    match rangeMatch firstparam with
    | some (pname, first, last, inc, _) =>
      (perl.steps (perl.number last) (perl.number inc) fuel first (perl.number first)).bind
        fun values => substituted pname values
    | none =>
      match listMatch firstparam with
      | some (pname, list, _) => substituted pname (perlSplit ',' list)
      | none => exps fuel name (line ++ ' ' :: firstparam) params

def readExp (fuel : ℕ) (exp : Text) : Option (List Text) :=
  (splitPreserveQuotes exp).bind fun expv =>
    perl.exps fuel (expv.headD []) ((expv.drop 1).headD []) (expv.drop 2)

def readExps (fuel : ℕ) (lines : List Text) : Option (List Text) :=
  ((readLines lines).mapM (perl.readExp fuel)).map List.flatten

end Perl

/-! ### What the experiments should be -/

/-- A name is characters and references to parameters. -/
inductive Piece
  | char (c : Char)
  | ref (pname : Text)

def Piece.text : Piece → Text
  | char c => [c]
  | ref pname => reference pname

/-- The values that a parameter takes. -/
inductive Choices
  | list (values : List Text)
  | range (first last inc : Text)

namespace Choices

def text : Choices → Text
  | list values => [','].intercalate values
  | range first last inc => first ++ ';' :: last ++ ';' :: inc

/-- The first value of a range is the text that is given for it. -/
def values : Choices → List Text
  | list values => values
  | range first last inc =>
    match integerOf first, integerOf last, integerOf inc with
    | some n, some m, some k =>
      if m < n then []
      else first :: (List.range ((m - n) / k).toNat).map fun j : ℕ => decimal (n + (j + 1) * k)
    | _, _, _ => []

/-- A character of a value. -/
def isValueChar (c : Char) : Bool := c ∉ [',', ';', '=', '$', '[', ']', '{', '}']

def Valid : Choices → Prop
  | list values => ∀ value ∈ values, value ≠ [] ∧ value.all isValueChar = true
  | range first last inc => ∃ n m k, integerOf first = some n ∧ integerOf last = some m ∧
      integerOf inc = some k ∧ 1 ≤ k ∧ Fits n ∧ Fits m ∧ Fits k ∧ Fits (m + k)

end Choices

inductive Token
  | plain (text : Text)
  | ranged (pname : Text) (choices : Choices)

namespace Token

def text : Token → Text
  | plain text => text
  | ranged pname choices => pname ++ '=' :: '[' :: choices.text ++ [']']

/-- A token for which values are chosen, or one that does not look like one. -/
def Valid : Token → Prop
  | plain text => listMatch text = none
  | ranged pname choices => isName pname = true ∧ choices.Valid

def pname : Token → Option Text
  | plain _ => none
  | ranged pname _ => some pname

/-- The token in an experiment. -/
def chosen (choice : List (Text × Text)) : Token → Text
  | plain text => text
  | ranged pname _ => pname ++ '=' :: (choice.lookup pname).getD []

end Token

/-- The choices of one value for each parameter, those of the last parameter next to each other. -/
def assignments : List Token → List (List (Text × Text))
  | [] => [[]]
  | .plain _ :: tokens => assignments tokens
  | .ranged pname choices :: tokens =>
    choices.values.flatMap fun value => (assignments tokens).map ((pname, value) :: ·)

/-- A reference that has a value is replaced by it. -/
def Piece.filled (choice : List (Text × Text)) : Piece → Text
  | char c => [c]
  | ref pname => (choice.lookup pname).getD (reference pname)

def fill (choice : List (Text × Text)) (pieces : List Piece) : Text :=
  pieces.flatMap (Piece.filled choice)

def experiments (pieces : List Piece) (model : Text) (tokens : List Token) : List Text :=
  (assignments tokens).map fun choice =>
    fill choice pieces ++ ' ' :: model ++ tokens.flatMap fun token => ' ' :: token.chosen choice

/-- The lines of an experiment: those that are continued end with a backslash and white space. -/
def physicalLines (fronts : List (Text × Text)) (last : Text) : List Text :=
  fronts.map (fun front => front.1 ++ '\\' :: front.2) ++ [last]

/-- These lines are those of one experiment, which begins with its name, and hold these tokens. -/
structure Written (fronts : List (Text × Text)) (last : Text) (expv : List Text) : Prop where
  spaces : ∀ front ∈ fronts, ∀ c ∈ front.2, inSpaceClass c = true
  noQuote : ∀ text ∈ fronts.map Prod.fst ++ [last], '"' ∉ text
  tokens : (fronts.map Prod.fst ++ [last]).flatMap tokens = expv
  begins : ∃ c rest lines, fronts.map Prod.fst ++ [last] = (c :: rest) :: lines ∧
    c ≠ ' ' ∧ c ≠ '\t' ∧ c ≠ '#'
  ends : ∃ token c, expv.getLast? = some (token ++ [c]) ∧ inSpaceClass c = false ∧ c ≠ '\\'

/-! ### Reading the lines -/

variable {text a b : Text} {c : Char} {fronts : List (Text × Text)} {last : Text}
  {expv : List Text}

theorem tokens_append_blank (hquote : '"' ∉ a) (b : Text) :
    tokens (a ++ ' ' :: b) = tokens a ++ tokens b := by
  have hself := tokensFrom_append hquote none []
  rw [List.append_nil] at hself
  rw [tokens, tokens, tokens, tokensFrom_append hquote, hself, tokensFrom_blank, List.append_assoc]
  rfl

/-- The last character that is no blank ends the last token. -/
theorem getLast_tokens (hquote : '"' ∉ a ++ [c]) (hblank : c ≠ ' ') :
    ∃ token, (tokens (a ++ [c])).getLast? = some (token ++ [c]) := by
  rw [List.mem_append, not_or, List.mem_singleton] at hquote
  have hself := tokensFrom_append hquote.1 none [c]
  rw [tokensFrom_char (Ne.symm hquote.2) hblank] at hself
  exact ⟨_, by rw [tokens, hself]; exact List.getLast?_concat⟩

theorem tokens_blanks (hquote : '"' ∉ a) (hb : ∀ c ∈ b, c = ' ') : tokens (a ++ b) = tokens a := by
  induction b using List.reverseRecOn with
  | nil => rw [List.append_nil]
  | append_singleton b c ih =>
    have hb' : ∀ c ∈ b, c = ' ' := fun d hd => hb d (List.mem_append_left _ hd)
    obtain rfl : c = ' ' := hb c (List.mem_append_right _ (List.mem_singleton_self c))
    have hquote' : '"' ∉ a ++ b := by
      rw [List.mem_append, not_or]
      exact ⟨hquote, fun h => absurd (hb' _ h) (by decide)⟩
    rw [← List.append_assoc, tokens_append_blank hquote', ih hb']
    exact List.append_nil _

/-- What is read so far of a line that is continued. -/
def readSoFar (pending front : Text) : Text := (pending ++ front).rdropWhile (· = ' ') ++ [' ']

theorem rdropWhile_append {p : Char → Bool} (hb : ∀ c ∈ b, p c = true) (a : Text) :
    (a ++ b).rdropWhile p = a.rdropWhile p := by
  rw [List.rdropWhile, List.rdropWhile, List.reverse_append,
    List.dropWhile_append_of_pos fun c hc => hb c (List.mem_reverse.mp hc)]

theorem isContinued_front {space : Text} (hspace : ∀ c ∈ space, inSpaceClass c = true)
    (text : Text) : isContinued (text ++ '\\' :: space) = true ∧
      dropContinuation (text ++ '\\' :: space) = text.rdropWhile (· = ' ') ++ [' '] := by
  have hdrop : (text ++ '\\' :: space).rdropWhile inSpaceClass = text ++ ['\\'] := by
    rw [List.append_cons, rdropWhile_append hspace, List.rdropWhile_concat_neg _ _ _ (by decide)]
  rw [isContinued, dropContinuation, hdrop, List.getLast?_concat, List.dropLast_concat]
  exact ⟨rfl, rfl⟩

theorem exists_blanks (text : Text) : ∃ blanks,
    text = text.rdropWhile (· = ' ') ++ blanks ∧ ∀ c ∈ blanks, c = ' ' := by
  refine ⟨text.rtakeWhile (· = ' '), List.rdropWhile_append_rtakeWhile.symm, fun c hc => ?_⟩
  have hblank := List.mem_rtakeWhile_imp hc
  exact of_decide_eq_true hblank

theorem isContinued_eq_false (hquote : '"' ∉ text) (hends : ∃ token c,
    (tokens text).getLast? = some (token ++ [c]) ∧ inSpaceClass c = false ∧ c ≠ '\\') :
    isContinued text = false := by
  obtain ⟨token, c, hlast, hspace, hbackslash⟩ := hends
  obtain ⟨blanks, htext, hblanks⟩ := exists_blanks text
  have hquote' : '"' ∉ text.rdropWhile (· = ' ') := fun h =>
    hquote ((List.rdropWhile_prefix _ _).subset h)
  rw [htext, tokens_blanks hquote' hblanks] at hlast
  have hne : text.rdropWhile (· = ' ') ≠ [] := by
    intro hnil
    rw [hnil] at hlast
    cases hlast
  obtain ⟨body, d, hbody⟩ := (List.eq_nil_or_concat' _).resolve_left hne
  have hd : d ≠ ' ' := by
    have hnot := List.rdropWhile_last_not _ _ hne
    simpa [hbody] using hnot
  rw [hbody] at hquote' hlast
  obtain ⟨token', hlast'⟩ := getLast_tokens hquote' hd
  obtain rfl : d = c := by
    rw [hlast'] at hlast
    exact (List.append_inj' (Option.some.inj hlast) rfl).2 |> List.head_eq_of_cons_eq
  have hclass : ∀ c ∈ blanks, inSpaceClass c = true := fun c hc => by
    rw [hblanks c hc]
    rfl
  rw [isContinued, htext, hbody, rdropWhile_append hclass,
    List.rdropWhile_concat_neg _ _ _ (by simp [hspace]), List.getLast?_concat]
  exact decide_eq_false fun h => hbackslash (Option.some.inj h)

theorem tokens_pending {pending : Option Text}
    (hpending : ∀ text, pending = some text → '"' ∉ text ∧ ∃ read, text = read ++ [' '])
    (b : Text) : tokens (pending.getD [] ++ b) = tokens (pending.getD []) ++ tokens b := by
  cases pending with
  | none => rfl
  | some text =>
    obtain ⟨hquote, read, rfl⟩ := hpending text rfl
    have hread : '"' ∉ read := fun h => hquote (List.mem_append_left _ h)
    rw [Option.getD_some, List.append_assoc, List.singleton_append, tokens_append_blank hread,
      tokens_append_blank hread, show tokens [] = [] from rfl, List.append_nil]

/-- Lines that are continued are joined to one, which has all their tokens. -/
theorem joinLines_physical (pending : Option Text)
    (hspaces : ∀ front ∈ fronts, ∀ c ∈ front.2, inSpaceClass c = true)
    (hquote : ∀ text ∈ fronts.map Prod.fst ++ [last], '"' ∉ text)
    (hpending : ∀ text, pending = some text → '"' ∉ text ∧ ∃ read, text = read ++ [' '])
    (hends : ∃ token c, (tokens (pending.getD []) ++
      (fronts.map Prod.fst ++ [last]).flatMap tokens).getLast? = some (token ++ [c]) ∧
        inSpaceClass c = false ∧ c ≠ '\\') :
    ∃ exp, joinLines pending (physicalLines fronts last) = [exp] ∧ '"' ∉ exp ∧
      tokens exp = tokens (pending.getD []) ++ (fronts.map Prod.fst ++ [last]).flatMap tokens ∧
      ∀ line lines c rest, fronts.map Prod.fst ++ [last] = line :: lines →
        pending.getD [] ++ line = c :: rest → c ≠ ' ' → ∃ rest, exp = c :: rest := by
  have hquotePending : '"' ∉ pending.getD [] := by
    cases pending with
    | none => exact List.not_mem_nil
    | some text => exact (hpending text rfl).1
  induction fronts generalizing pending with
  | nil =>
    have hquoteExp : '"' ∉ pending.getD [] ++ last := by
      rw [List.mem_append, not_or]
      exact ⟨hquotePending, hquote last (List.mem_singleton_self last)⟩
    have htokens := tokens_pending hpending last
    have hcomplete : isContinued (pending.getD [] ++ last) = false := by
      refine isContinued_eq_false hquoteExp ?_
      rw [htokens]
      simpa using hends
    refine ⟨pending.getD [] ++ last, ?_, hquoteExp, ?_, ?_⟩
    · rw [physicalLines, List.map_nil, List.nil_append, joinLines, if_neg (by simp [hcomplete])]
      rfl
    · rw [htokens, List.map_nil, List.nil_append, List.flatMap_singleton]
    · intro line lines c rest hlines hline _
      obtain ⟨rfl, -⟩ := List.cons.inj hlines
      exact ⟨rest, hline⟩
  | cons front fronts ih =>
    obtain ⟨front, space⟩ := front
    have hquoteFront : '"' ∉ pending.getD [] ++ front := by
      rw [List.mem_append, not_or]
      exact ⟨hquotePending, hquote front List.mem_cons_self⟩
    obtain ⟨blanks, htext, hblanks⟩ := exists_blanks (pending.getD [] ++ front)
    have hquoteRead : '"' ∉ (pending.getD [] ++ front).rdropWhile (· = ' ') := fun h =>
      hquoteFront ((List.rdropWhile_prefix _ _).subset h)
    have hread : tokens (readSoFar (pending.getD []) front) =
        tokens (pending.getD []) ++ tokens front := by
      rw [readSoFar, tokens_append_blank hquoteRead, show tokens [] = [] from rfl, List.append_nil,
        ← tokens_pending hpending, ← tokens_blanks hquoteRead hblanks, ← htext]
    obtain ⟨hcontinued, hdrop⟩ := isContinued_front
      (hspaces _ List.mem_cons_self) (pending.getD [] ++ front)
    have hquoteRead' : '"' ∉ readSoFar (pending.getD []) front := by
      rw [readSoFar, List.mem_append, not_or]
      exact ⟨hquoteRead, by decide⟩
    obtain ⟨exp, hjoin, hquoteExp, htokens, hhead⟩ := ih (some (readSoFar (pending.getD []) front))
      (fun other hother => hspaces other (List.mem_cons_of_mem _ hother))
      (fun text htext => hquote text (List.mem_cons_of_mem _ htext))
      (fun text h => by
        obtain rfl := Option.some.inj h
        exact ⟨hquoteRead', _, rfl⟩)
      (by
        rw [Option.getD_some, hread, List.append_assoc]
        exact hends)
      hquoteRead'
    refine ⟨exp, ?_, hquoteExp, ?_, ?_⟩
    · rw [physicalLines, List.map_cons, List.cons_append, joinLines, ← List.append_assoc,
        if_pos hcontinued, hdrop]
      exact hjoin
    · rw [htokens, Option.getD_some, hread, List.append_assoc]
      rfl
    · intro line lines c rest hlines hline hblank
      obtain ⟨rfl, -⟩ := List.cons.inj hlines
      obtain ⟨body, hbody⟩ : ∃ body,
          (pending.getD [] ++ front).rdropWhile (· = ' ') = c :: body := by
        rw [hline]
        cases hkept : (c :: rest).rdropWhile (· = ' ') with
        | nil =>
          have hall := List.rdropWhile_eq_nil_iff.mp hkept c List.mem_cons_self
          exact absurd (of_decide_eq_true hall) hblank
        | cons d body =>
          have hbegins := List.rdropWhile_prefix (fun x : Char => decide (x = ' ')) (c :: rest)
          rw [hkept] at hbegins
          rw [(List.cons_prefix_cons.mp hbegins).1]
          exact ⟨body, rfl⟩
      obtain ⟨line', lines', hlines'⟩ := List.exists_cons_of_ne_nil
        (List.append_ne_nil_of_right_ne_nil (fronts.map Prod.fst) (List.cons_ne_nil last []))
      refine hhead line' lines' c (body ++ ' ' :: line') hlines' ?_ hblank
      rw [Option.getD_some, readSoFar, hbody, List.append_assoc]
      rfl

/-- The subroutine splits a line without quotes at the blanks. -/
theorem splitPreserveQuotes_of_noQuote (hquote : '"' ∉ c :: text) (hblank : c ≠ ' ') :
    splitPreserveQuotes (c :: text) = some (tokens (c :: text)) := by
  have hsplit : perlSplit '"' (c :: text) = [c :: text] := by
    rw [perlSplit, List.splitOn_eq_singleton hquote, List.rdropWhile_singleton, if_neg (by simp)]
  rw [splitPreserveQuotes, hsplit, if_pos (by simp), splitBlanks_char hquote hblank]
  rfl

theorem Written.read (h : Written fronts last expv) : ∃ exp,
    readLines (physicalLines fronts last) = [exp] ∧ splitPreserveQuotes exp = some expv := by
  obtain ⟨exp, hjoin, hquote, htokens, hhead⟩ := joinLines_physical none h.spaces h.noQuote
    (fun text htext => nomatch htext) (by
      rw [h.tokens]
      exact h.ends)
  obtain ⟨c, rest, lines, hlines, hblank, htab, hsharp⟩ := h.begins
  obtain ⟨rest', rfl⟩ := hhead _ lines c rest hlines rfl hblank
  have hkept : isSkipped (c :: rest') = false := by
    simp [isSkipped, hblank, htab, hsharp]
  refine ⟨c :: rest', ?_, ?_⟩
  · rw [readLines, hjoin, List.filter_cons_of_pos (by rw [hkept]; rfl), List.filter_nil]
  · rw [splitPreserveQuotes_of_noQuote hquote hblank, htokens, h.tokens]
    rfl

/-! ### Recognizing the tokens -/

section upTo
variable {β : Type} {mark before rest : Text} {behind : Text → Option β} {found : β}

theorem upTo_eq_none_iff (hmark : mark ≠ []) : upTo mark behind text = none ↔
    ∀ before rest, text = before ++ mark ++ rest → behind rest = none := by
  induction text with
  | nil =>
    refine iff_of_true rfl fun before rest h => absurd h.symm ?_
    simp [hmark]
  | cons c cs ih =>
    rw [upTo]
    constructor
    · intro h before rest htext
      cases hlater : upTo mark behind cs with
      | some found => rw [hlater] at h; cases h
      | none =>
        rw [hlater] at h
        cases before with
        | nil =>
          have hbegins : mark.isPrefixOf (c :: cs) = true :=
            List.isPrefixOf_iff_prefix.mpr ⟨rest, htext.symm⟩
          simp only [hbegins, if_true] at h
          rw [htext, List.nil_append, List.drop_left] at h
          exact Option.map_eq_none_iff.mp h
        | cons d before =>
          obtain ⟨rfl, hcs⟩ := List.cons.inj htext
          exact ih.mp hlater before rest hcs
    · intro h
      have hlater : upTo mark behind cs = none :=
        ih.mpr fun before rest hcs => h (c :: before) rest (by rw [hcs]; rfl)
      rw [hlater]
      dsimp only
      split
      next hbegins =>
        obtain ⟨rest, hrest⟩ := List.isPrefixOf_iff_prefix.mp hbegins
        rw [← hrest, List.drop_left, h [] rest hrest.symm]
        rfl
      next => rfl

/-- The last match that what follows agrees to is taken. -/
theorem upTo_append (c : Char) (hfound : behind rest = some found)
    (hlast : upTo (c :: mark) behind (mark ++ rest) = none) (before : Text) :
    upTo (c :: mark) behind (before ++ c :: mark ++ rest) = some (before, found) := by
  induction before with
  | nil =>
    have hbegins : (c :: mark).isPrefixOf (c :: (mark ++ rest)) = true :=
      List.isPrefixOf_iff_prefix.mpr ⟨rest, rfl⟩
    have hdrop : (c :: (mark ++ rest)).drop (c :: mark).length = rest := by
      rw [← List.cons_append, List.drop_left]
    rw [List.nil_append, List.cons_append, upTo, hlast]
    dsimp only
    rw [if_pos hbegins, hdrop, hfound]
    rfl
  | cons d before ih =>
    rw [List.cons_append, List.cons_append, upTo, ih]

theorem upTo_none_of_notMem (c : Char) (hmem : c ∉ text) :
    upTo (c :: mark) behind text = none := by
  refine (upTo_eq_none_iff (List.cons_ne_nil c mark)).mpr fun before rest htext => ?_
  refine absurd ?_ hmem
  rw [htext]
  simp

end upTo

theorem closed_append (hmem : ']' ∉ b) : closed (a ++ ']' :: b) = some (a, ()) := by
  have hlast : upTo [']'] (fun _ => some ()) ([] ++ b) = none := upTo_none_of_notMem ']' hmem
  rw [closed, List.append_cons]
  exact @upTo_append _ [] b (fun _ => some ()) () ']' rfl hlast a

theorem closed_none (hmem : ']' ∉ a) : closed a = none := upTo_none_of_notMem ']' hmem

theorem rangeMatch_none (h : listMatch text = none) : rangeMatch text = none := by
  rw [listMatch, upTo_eq_none_iff (by decide)] at h
  refine (upTo_eq_none_iff (by decide)).mpr fun before rest htext => ?_
  have hclosed := (upTo_eq_none_iff (by decide)).mp (h before rest htext)
  refine (upTo_eq_none_iff (by decide)).mpr fun before' rest' hrest => ?_
  refine (upTo_eq_none_iff (by decide)).mpr fun before'' rest'' hrest' => ?_
  refine (upTo_eq_none_iff (by decide)).mpr fun front back hback => ?_
  refine absurd (hclosed (before' ++ [';'] ++ before'' ++ [';'] ++ front) back ?_) (by simp)
  rw [hrest, hrest', hback]
  simp only [List.append_assoc]

/-- No text in brackets begins later. -/
theorem upTo_brackets {β : Type} {behind : Text → Option β} {found : β} (hmem : '=' ∉ b)
    (hfound : behind b = some found) :
    upTo ['=', '['] behind (a ++ '=' :: '[' :: b) = some (a, found) := by
  have hlast : upTo ['=', '['] behind (['['] ++ b) = none :=
    upTo_none_of_notMem '=' (by simpa using hmem)
  have h := upTo_append '=' hfound hlast a
  rwa [List.append_assoc] at h

theorem listMatch_brackets (hmem : '=' ∉ b ∧ ']' ∉ b) :
    listMatch (a ++ '=' :: '[' :: b ++ [']']) = some (a, b, ()) := by
  rw [listMatch, List.append_assoc, List.cons_append, List.cons_append]
  refine upTo_brackets ?_ (closed_append List.not_mem_nil)
  rw [List.mem_append, not_or]
  exact ⟨hmem.1, by decide⟩

theorem rangeMatch_of_noSemicolon (hmem : ';' ∉ text) : rangeMatch text = none := by
  refine (upTo_eq_none_iff (by decide)).mpr fun before rest htext => upTo_none_of_notMem ';' ?_
  rw [htext, List.mem_append, not_or] at hmem
  exact hmem.2

theorem rangeMatch_brackets {first last inc : Text}
    (hmem : ∀ c ∈ ['=', ';', ']'], c ∉ first ∧ c ∉ last ∧ c ∉ inc) (pname : Text) :
    rangeMatch (pname ++ '=' :: '[' :: (first ++ ';' :: last ++ ';' :: inc) ++ [']']) =
      some (pname, first, last, inc, ()) := by
  obtain ⟨hfirst, hlast, hinc⟩ := hmem ';' (by decide)
  obtain ⟨hfirst', hlast', hinc'⟩ := hmem '=' (by decide)
  have hclosed : closed (inc ++ [']']) = some (inc, ()) := closed_append List.not_mem_nil
  have hlater : upTo [';'] closed (inc ++ [']']) = none :=
    upTo_none_of_notMem ';' (by simpa using hinc)
  have hsecond : upTo [';'] closed (last ++ [';'] ++ (inc ++ [']'])) = some (last, inc, ()) :=
    upTo_append ';' hclosed hlater last
  -- of the two semicolons the first one is the last that has another one behind it
  have hlater' : upTo [';'] (upTo [';'] closed) (last ++ [';'] ++ (inc ++ [']'])) = none := by
    refine (upTo_eq_none_iff (by decide)).mpr fun before rest htext => upTo_none_of_notMem ';' ?_
    have hcount := congrArg (List.count ';') htext
    simp only [List.count_append, List.count_eq_zero_of_not_mem hlast,
      List.count_eq_zero_of_not_mem hinc] at hcount
    have hone : List.count ';' [';'] = 1 := by decide
    have hnone : List.count ';' [']'] = 0 := by decide
    exact List.count_eq_zero.mp (by omega)
  have hthird := @upTo_append _ [] _ (upTo [';'] closed) _ ';' hsecond hlater' first
  have hbrackets : '=' ∉ first ++ [';'] ++ (last ++ [';'] ++ (inc ++ [']'])) := by
    simp [hfirst', hlast', hinc']
  have h := upTo_brackets (a := pname) hbrackets hthird
  rw [rangeMatch]
  simpa using h

theorem natural_chars {digits : Text} {n : ℕ} (h : naturalOf digits = some n) :
    ∀ c ∈ digits, c.isDigit = true := by
  unfold naturalOf at h
  split at h
  next hdigits => exact List.all_eq_true.mp hdigits.2
  next => cases h

theorem integer_chars {n : ℤ} (h : integerOf text = some n) :
    ∀ c ∈ text, c.isDigit = true ∨ c = '-' ∨ c = '+' := by
  have hsigned : ∀ digits : Text, (∃ k, naturalOf digits = some k) →
      ∀ c ∈ digits, c.isDigit = true ∨ c = '-' ∨ c = '+' :=
    fun digits ⟨k, hk⟩ c hc => Or.inl (natural_chars hk c hc)
  fun_cases integerOf text with
  | case1 digits =>
    obtain ⟨k, hk, -⟩ := Option.map_eq_some_iff.mp h
    exact List.forall_mem_cons.mpr ⟨Or.inr (Or.inl rfl), hsigned digits ⟨k, hk⟩⟩
  | case2 digits =>
    obtain ⟨k, hk, -⟩ := Option.map_eq_some_iff.mp h
    exact List.forall_mem_cons.mpr ⟨Or.inr (Or.inr rfl), hsigned digits ⟨k, hk⟩⟩
  | case3 _ hminus hplus =>
    rw [integerOf] at h
    · obtain ⟨k, hk, -⟩ := Option.map_eq_some_iff.mp h
      exact hsigned text ⟨k, hk⟩
    · exact hminus
    · exact hplus

theorem notMem_integer {n : ℤ} (h : integerOf text = some n) (hc : c.isDigit = false)
    (hsign : c ≠ '-' ∧ c ≠ '+') : c ∉ text := by
  intro hmem
  rcases integer_chars h c hmem with hdigit | hminus | hplus
  · rw [hc] at hdigit
    cases hdigit
  · exact hsign.1 hminus
  · exact hsign.2 hplus

/-! ### The loops over the values -/

variable {perl : Perl} {n m k : ℤ}

/-- The loop ends as soon as the increments lead over the last value. -/
theorem steps_eq (hk : 1 ≤ k) (hfits : Fits m ∧ Fits k ∧ Fits (m + k)) (extra : ℕ) {t : ℕ}
    (hn : Fits n) (hlast : m < n + t * k) (i : Text) :
    perl.steps (perl.int m) (perl.int k) (t + 1 + extra) i (perl.int n) = some (if m < n then []
      else i :: (List.range ((m - n) / k).toNat).map fun j : ℕ => decimal (n + (j + 1) * k)) := by
  obtain ⟨hm, hkfits, hsum⟩ := hfits
  induction t generalizing n i with
  | zero =>
    have hover : m < n := by simpa using hlast
    rw [show 0 + 1 + extra = extra + 1 by omega, Perl.steps, perl.le_int n m hn hm,
      decide_eq_false (by omega), if_neg (by decide), if_pos hover]
  | succ t ih =>
    rw [show t + 1 + 1 + extra = (t + 1 + extra) + 1 by omega, Perl.steps, perl.le_int n m hn hm]
    by_cases hover : m < n
    · rw [decide_eq_false (by omega), if_neg (by decide), if_pos hover]
    · have hnext : Fits (n + k) := ⟨hn.1.trans (by omega), lt_of_le_of_lt (by omega) hsum.2⟩
      have hlast' : m < n + k + t * k := by
        push_cast at hlast
        linarith
      rw [decide_eq_true (by omega), if_pos rfl, if_neg hover]
      dsimp only
      rw [perl.add_int n k hn hkfits hnext, perl.numberText_int _ hnext, ih hnext hlast',
        Option.map_some]
      congr 2
      by_cases hend : m < n + k
      · have hzero : (m - n) / k = 0 := Int.ediv_eq_zero_of_lt (by omega) (by omega)
        rw [if_pos hend, hzero]
        rfl
      · have hdiv : (m - n) / k = (m - (n + k)) / k + 1 := by
          rw [show m - n = m - (n + k) + 1 * k by ring, Int.add_mul_ediv_right _ _ (by omega)]
        have hnonneg : 0 ≤ (m - (n + k)) / k := Int.ediv_nonneg (by omega) (by omega)
        have hsucc : ((m - n) / k).toNat = ((m - (n + k)) / k).toNat + 1 := by omega
        rw [if_neg hend, hsucc, List.range_succ_eq_map, List.map_cons, List.map_map]
        congr 1
        · rw [Nat.cast_zero, zero_add, one_mul]
        · refine List.map_congr_left fun j _ => congrArg decimal ?_
          push_cast
          ring

/-- The experiments of a line, with the values of each token known. -/
def expand (perl : Perl) : Text → Text → List Token → Option (List Text)
  | name, line, [] => if isUnsubstituted name then none else some [name ++ ' ' :: line]
  | name, line, .plain text :: tokens => expand perl name (line ++ ' ' :: text) tokens
  | name, line, .ranged pname choices :: tokens =>
    (choices.values.mapM fun i => (perl.substitute pname i name).bind fun newname =>
      expand perl newname (line ++ ' ' :: pname ++ '=' :: i) tokens).map List.flatten

theorem values_chars {values : List Text} (h : (Choices.list values).Valid) (hc : c ≠ ',')
    (hvalue : Choices.isValueChar c = false) : c ∉ [','].intercalate values := by
  intro hmem
  rcases Splitting.mem_intercalate hmem with hcomma | ⟨value, hmem, hc'⟩
  · exact hc (List.mem_singleton.mp hcomma)
  · have hall := List.all_eq_true.mp (h value hmem).2 c hc'
    rw [hvalue] at hall
    cases hall

/-- The values of a list are found again. -/
theorem perlSplit_values {values : List Text} (h : (Choices.list values).Valid) :
    perlSplit ',' ([','].intercalate values) = values := by
  have hcomma : ∀ value ∈ values, ',' ∉ value := fun value hvalue hmem =>
    absurd (List.all_eq_true.mp (h value hvalue).2 ',' hmem) (by decide)
  rw [perlSplit_join hcomma, List.rdropWhile_eq_self_iff]
  intro hne hempty
  exact (h _ (List.getLast_mem hne)).1 (List.isEmpty_iff.mp hempty)

theorem notMem_name {pname : Text} (h : isName pname = true) (hc : isWordChar c = false) :
    c ∉ pname := by
  intro hmem
  rw [isName, Bool.and_eq_true, List.all_eq_true] at h
  rw [h.2 c hmem] at hc
  cases hc

/-- With enough iterations allowed for its loops, the subroutine does what is expected of the
tokens. -/
theorem exists_exps_eq {tokens : List Token} (h : ∀ token ∈ tokens, token.Valid) :
    ∃ bound, ∀ fuel, bound ≤ fuel → ∀ name line,
      perl.exps fuel name line (tokens.map Token.text) = expand perl name line tokens := by
  induction tokens with
  | nil => exact ⟨0, fun _ _ _ _ => rfl⟩
  | cons token tokens ih =>
    obtain ⟨bound, hbound⟩ := ih fun other hother => h other (List.mem_cons_of_mem token hother)
    have htoken := h token List.mem_cons_self
    cases token with
    | plain text =>
      refine ⟨bound, fun fuel hfuel name line => ?_⟩
      have hlist : listMatch text = none := htoken
      rw [List.map_cons, Token.text, Perl.exps, rangeMatch_none hlist, hlist]
      exact hbound fuel hfuel name _
    | ranged pname choices =>
      obtain ⟨hname, hvalid⟩ := htoken
      cases choices with
      | list values =>
        refine ⟨bound, fun fuel hfuel name line => ?_⟩
        have hsemicolon : ';' ∉ (Token.ranged pname (.list values)).text := by
          have hvalues := values_chars hvalid (c := ';') (by decide) rfl
          simp [Token.text, Choices.text, notMem_name hname (c := ';') rfl, hvalues]
        have hlist : listMatch (Token.ranged pname (.list values)).text =
            some (pname, [','].intercalate values, ()) :=
          listMatch_brackets ⟨values_chars hvalid (by decide) rfl,
            values_chars hvalid (by decide) rfl⟩
        rw [List.map_cons, Perl.exps, rangeMatch_of_noSemicolon hsemicolon, hlist]
        dsimp only
        rw [perlSplit_values hvalid, expand]
        simp only [hbound fuel hfuel]
        rfl
      | range first last inc =>
        obtain ⟨n, m, k, hfirst, hlast, hinc, hk, hn, hm, hkfits, hsum⟩ := hvalid
        refine ⟨max bound (((m - n) / k).toNat + 2), fun fuel hfuel name line => ?_⟩
        have hchars : ∀ c ∈ ['=', ';', ']'], c ∉ first ∧ c ∉ last ∧ c ∉ inc := by
          intro c hc
          have hdigit : c.isDigit = false ∧ c ≠ '-' ∧ c ≠ '+' := by
            simp only [List.mem_cons, List.not_mem_nil, or_false] at hc
            rcases hc with rfl | rfl | rfl <;> decide
          exact ⟨notMem_integer hfirst hdigit.1 hdigit.2, notMem_integer hlast hdigit.1 hdigit.2,
            notMem_integer hinc hdigit.1 hdigit.2⟩
        have hover : m < n + ((((m - n) / k).toNat + 1 : ℕ) : ℤ) * k := by
          have hdiv := Int.lt_ediv_add_one_mul_self (m - n) (by omega : 0 < k)
          have hle : (m - n) / k ≤ ((m - n) / k).toNat := Int.self_le_toNat _
          push_cast
          nlinarith
        obtain ⟨extra, rfl⟩ : ∃ extra, fuel = (((m - n) / k).toNat + 1) + 1 + extra :=
          ⟨fuel - (((m - n) / k).toNat + 2), by omega⟩
        have hsteps := (steps_eq hk ⟨hm, hkfits, hsum⟩ extra hn hover first :
          perl.steps (perl.int m) _ _ _ _ = _)
        rw [List.map_cons, Perl.exps, Token.text, Choices.text, rangeMatch_brackets hchars]
        dsimp only
        rw [perl.number_spelled first n hfirst hn, perl.number_spelled last m hlast hm,
          perl.number_spelled inc k hinc hkfits, hsteps, Option.bind_some, expand]
        simp only [hbound _ ((le_max_left _ _).trans hfuel), Choices.values, hfirst, hlast, hinc]

end Awb.Run.Experiments
