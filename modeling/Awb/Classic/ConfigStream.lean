import Awb.Classic.ConfigFile
import Awb.Lib.Splitting

/-! The reading of a configuration file: lines are read into a buffer until the stream is no longer
good, and one that does not fit the buffer makes the stream fail. -/

namespace Awb.Classic

/-! ### The stream -/

/-- `ifstream`: what is left of the file, and the flags of its state. -/
structure Istream where
  rest : List Char
  eof : Bool := false
  fail : Bool := false

def Istream.good (s : Istream) : Bool := !s.eof && !s.fail

/-- The characters `getline` stores in a buffer with so much room, and the stream afterwards: it is
looked for the end of the file first, then for the end of the line, then for room. -/
def getChars : ℕ → List Char → List Char × Istream
  | _, [] => ([], { rest := [], eof := true })
  | room, c :: cs =>
    if c = '\n' then ([], { rest := cs })
    else match room with
      | 0 => ([], { rest := c :: cs, fail := true })
      | room + 1 => (getChars room cs).map (c :: ·) id

/-- `getline` of a stream that is good; it fails if no character is extracted. -/
def Istream.getline (size : ℕ) (s : Istream) : List Char × Istream :=
  if s.rest = [] then ([], { s with eof := true, fail := true }) else getChars (size - 1) s.rest

/-- A buffer as the string that the loop over its characters sees. -/
def cString (buffer : List Char) : List Char := buffer.takeWhile (· ≠ '\x00')

def stringWords (line : List Char) : List String := lineWords line.length line

/-- The loop of `ParseConfigFile` that builds the list of arguments, with fuel for its rounds. -/
def readWords : ℕ → Istream → List String
  | 0, _ => []
  | fuel + 1, s =>
    if s.good then
      let (nextline, s) := s.getline 256
      stringWords (cString nextline) ++ readWords fuel s
    else []

/-- The arguments of a file; the run is stopped if there are more than the array has room for. -/
def configArgv (text : List Char) : Except Abort (List String) :=
  let argv := readWords (text.length + 1) { rest := text }
  if argv.length < 4096 then .ok argv else .error .assertion

def textLines (text : List Char) : List (List Char) := text.splitOn '\n'

/-- The words of every line, whatever its length. -/
def allWords (text : List Char) : List String := (textLines text).flatMap stringWords

/-! ### What is not read -/

/-- Where the reading of a line is: between words, in a comment or in a word. -/
inductive LineState
  | gap
  | comment
  | word (s : ScanState)

def LineState.next : LineState → Char → LineState
  | gap, c => if isSpace c then gap else if c = '#' then comment
    else if c = '"' then word .quote else word .normal
  | comment, _ => comment
  | word .normal, c => if isSpace c then gap else if c = '"' then word .quote else word .normal
  | word .quote, c => if c = '\\' then word .esc else if c = '"' then word .normal else word .quote
  | word .esc, _ => word .quote

/-- What a character adds to the words: it belongs to one, or begins one, or both. -/
def LineState.adds : LineState → Char → ℕ
  | gap, c => if isSpace c ∨ c = '#' then 0 else if c = '"' then 1 else 2
  | comment, _ => 0
  | word .normal, c => if isSpace c ∨ c = '"' then 0 else 1
  | word .quote, c => if c = '"' then 0 else 1
  | word .esc, _ => 1

def LineState.after (st : LineState) (cs : List Char) : LineState := cs.foldl LineState.next st

/-- None of the characters belongs to a word or begins one. -/
def LineState.Skips : LineState → List Char → Prop
  | _, [] => True
  | st, c :: cs => st.adds c = 0 ∧ (st.next c).Skips cs

/-- The part of a line that is read: what fits the buffer, up to a null character. -/
def readPart (line : List Char) : List Char := cString (line.take 255)

/-- The lines up to the first one that does not fit the buffer. -/
def linesRead : List (List Char) → List (List Char)
  | [] => []
  | line :: lines => if line.length < 256 then line :: linesRead lines else [line]

/-- The lines behind the first one that does not fit the buffer. -/
def linesLeft : List (List Char) → List (List Char)
  | [] => []
  | line :: lines => if line.length < 256 then linesLeft lines else lines

/-- Nothing that is not read belongs to a word: neither behind the part of a line that is read, nor
in the lines behind the first one that does not fit the buffer. -/
structure NothingLost (text : List Char) : Prop where
  parts : ∀ line ∈ linesRead (textLines text),
    (LineState.gap.after (readPart line)).Skips (line.drop (readPart line).length)
  lines : ∀ line ∈ linesLeft (textLines text), LineState.gap.Skips line

/-! ### The words of a line -/

/-- A character in front of the first word. -/
def consHead (c : Char) : List (List Char) → List (List Char)
  | [] => [[c]]
  | word :: words => (c :: word) :: words

/-- The words of the rest of a line; in a word the first of them is its rest. -/
def LineState.words : LineState → List Char → List (List Char)
  | gap, [] => []
  | comment, _ => []
  | word _, [] => [[]]
  | gap, c :: cs =>
    if isSpace c then gap.words cs else if c = '#' then []
    else if c = '"' then (word .quote).words cs else consHead c ((word .normal).words cs)
  | word .normal, c :: cs =>
    if isSpace c then [] :: gap.words cs else if c = '"' then (word .quote).words cs
    else consHead c ((word .normal).words cs)
  | word .quote, c :: cs =>
    if c = '\\' then consHead c ((word .esc).words cs)
    else if c = '"' then (word .normal).words cs else consHead c ((word .quote).words cs)
  | word .esc, c :: cs => consHead c ((word .quote).words cs)

variable {cs line text : List Char} {st : LineState} {s : ScanState} {c : Char}

/-- In a word, it is what `scan_arg_value` copies, and the other words come behind it. -/
theorem LineState.words_word (s : ScanState) (cs : List Char) :
    (word s).words cs = (scanArgValue s cs).1 :: gap.words (scanArgValue s cs).2 := by
  induction cs generalizing s with
  | nil => cases s <;> rfl
  | cons c cs ih =>
    cases s with
    | normal =>
      rw [words, scanArgValue]
      split_ifs
      · rfl
      · exact ih .quote
      · rw [ih .normal]
        rfl
    | quote =>
      rw [words, scanArgValue]
      split_ifs
      · rw [ih .esc]
        rfl
      · exact ih .normal
      · rw [ih .quote]
        rfl
    | esc =>
      rw [words, scanArgValue, ih .quote]
      rfl

theorem LineState.words_dropWhile (cs : List Char) :
    gap.words (cs.dropWhile isSpace) = gap.words cs := by
  induction cs with
  | nil => rfl
  | cons c cs ih =>
    by_cases hc : isSpace c = true
    · rw [List.dropWhile_cons_of_pos hc, ih, words, if_pos hc]
    · rw [List.dropWhile_cons_of_neg hc]

theorem length_scanArgValue (s : ScanState) (cs : List Char) :
    (scanArgValue s cs).2.length ≤ cs.length := by
  induction cs generalizing s with
  | nil => cases s <;> exact le_rfl
  | cons c cs ih =>
    rw [List.length_cons]
    cases s with
    | normal =>
      rw [scanArgValue]
      split_ifs
      · exact Nat.le_succ _
      · exact (ih .quote).trans (Nat.le_succ _)
      · exact (ih .normal).trans (Nat.le_succ _)
    | quote =>
      rw [scanArgValue]
      split_ifs
      · exact (ih .esc).trans (Nat.le_succ _)
      · exact (ih .normal).trans (Nat.le_succ _)
      · exact (ih .quote).trans (Nat.le_succ _)
    | esc => exact (ih .quote).trans (Nat.le_succ _)

/-- A word uses up the character it begins with. -/
theorem length_scanArgValue_cons (hc : isSpace c = false) (cs : List Char) :
    (scanArgValue .normal (c :: cs)).2.length ≤ cs.length := by
  rw [scanArgValue, hc, if_neg Bool.false_ne_true]
  split_ifs
  · exact length_scanArgValue .quote cs
  · exact length_scanArgValue .normal cs

theorem lineWords_eq {fuel : ℕ} (hfuel : line.length ≤ fuel) :
    lineWords fuel line = (LineState.gap.words line).map String.ofList := by
  induction fuel generalizing line with
  | zero =>
    rw [List.eq_nil_of_length_eq_zero (Nat.le_zero.mp hfuel)]
    rfl
  | succ fuel ih =>
    rw [lineWords, ← LineState.words_dropWhile]
    cases hline : line.dropWhile isSpace with
    | nil => rfl
    | cons c cs =>
      have hlength : cs.length ≤ fuel := by
        have := (List.dropWhile_suffix isSpace (l := line)).length_le
        rw [hline, List.length_cons] at this
        omega
      have hspace : isSpace c = false := by
        have hhead := List.head?_dropWhile_not isSpace line
        rw [hline] at hhead
        exact hhead
      by_cases hcomment : c = '#'
      · subst hcomment
        rfl
      · have hword : LineState.gap.words (c :: cs) = (LineState.word .normal).words (c :: cs) := by
          simp only [LineState.words, hspace, Bool.false_eq_true, if_false, hcomment]
        simp only [if_neg hcomment]
        rw [hword, LineState.words_word, List.map_cons,
          ih ((length_scanArgValue_cons hspace cs).trans hlength)]

theorem stringWords_eq (line : List Char) :
    stringWords line = (LineState.gap.words line).map String.ofList := lineWords_eq le_rfl

/-! ### What is added to the words -/

/-- The characters of the words, and one for each word. -/
def weight (words : List (List Char)) : ℕ := (words.map fun word => word.length + 1).sum

theorem weight_consHead (c : Char) {words : List (List Char)} (h : words ≠ []) :
    weight (consHead c words) = weight words + 1 := by
  cases words with
  | nil => exact absurd rfl h
  | cons word words =>
    simp only [consHead, weight, List.map_cons, List.sum_cons, List.length_cons]
    omega

/-- In a word there is a first one. -/
theorem LineState.words_word_ne_nil (s : ScanState) (cs : List Char) :
    (word s).words cs ≠ [] := by
  rw [words_word]
  exact List.cons_ne_nil _ _

/-- What is added by a text. -/
def LineState.addsAll : LineState → List Char → ℕ
  | _, [] => 0
  | st, c :: cs => st.adds c + (st.next c).addsAll cs

/-- A word is there already, before its rest is read. -/
def LineState.begun : LineState → ℕ
  | gap | comment => 0
  | word _ => 1

theorem LineState.weight_words (st : LineState) (cs : List Char) :
    weight (st.words cs) = st.begun + st.addsAll cs := by
  have hcomment : ∀ cs, comment.addsAll cs = 0 := by
    intro cs
    induction cs with
    | nil => rfl
    | cons c cs ih => rw [addsAll, next, ih, adds]
  induction cs generalizing st with
  | nil => rcases st with _ | _ | s <;> rfl
  | cons c cs ih =>
    have hcons : ∀ s, weight (consHead c ((word s).words cs)) = 1 + (word s).addsAll cs + 1 := by
      intro s
      rw [weight_consHead c (words_word_ne_nil s cs), ih (.word s)]
      rfl
    have hword : ∀ s, weight ((word s).words cs) = 1 + (word s).addsAll cs := fun s => ih (.word s)
    have hgap : weight (gap.words cs) = gap.addsAll cs := (ih .gap).trans (Nat.zero_add _)
    rcases st with _ | _ | _ | _ | _
    · rw [words, addsAll, adds, next, begun]
      split_ifs with hspace hor hhash hor hor hquoted hor <;> try tauto
      · rw [hgap]
        omega
      · rw [hcomment]
        rfl
      · rw [hword]
        omega
      · rw [hcons]
        omega
    · rw [words, hcomment]
      rfl
    · rw [words, addsAll, adds, next, begun]
      split_ifs with hspace hor hquoted hor hor <;> try tauto
      · rw [weight, List.map_cons, List.sum_cons]
        change 0 + 1 + weight (gap.words cs) = _
        rw [hgap]
        omega
      · rw [hword]
        omega
      · rw [hcons]
        omega
    · rw [words, addsAll, adds, next, begun]
      split_ifs with hslash hquoted hquoted
      · rw [hslash] at hquoted
        exact absurd hquoted (by decide)
      · rw [hcons]
        omega
      · rw [hword]
        omega
      · rw [hcons]
        omega
    · rw [words, addsAll, adds, next, begun, hcons]
      omega

theorem LineState.addsAll_append (st : LineState) (front back : List Char) :
    st.addsAll (front ++ back) = st.addsAll front + (st.after front).addsAll back := by
  induction front generalizing st with
  | nil => exact (Nat.zero_add _).symm
  | cons c front ih =>
    rw [List.cons_append, addsAll, addsAll, ih, Nat.add_assoc]
    rfl

theorem LineState.skips_iff : st.Skips cs ↔ st.addsAll cs = 0 := by
  induction cs generalizing st with
  | nil => exact ⟨fun _ => rfl, fun _ => trivial⟩
  | cons c cs ih => rw [Skips, addsAll, ih, Nat.add_eq_zero_iff]

theorem LineState.words_of_skips (h : st.Skips cs) : st.words cs = st.words [] := by
  induction cs generalizing st with
  | nil => rfl
  | cons c cs ih =>
    obtain ⟨hadds, hrest⟩ := h
    have hnext := ih hrest
    rcases st with _ | _ | _ | _ | _
    · rw [adds] at hadds
      rw [next] at hnext
      conv_lhs => rw [words]
      split_ifs at hadds hnext ⊢ <;> tauto
    · rfl
    · rw [adds] at hadds
      rw [next] at hnext
      conv_lhs => rw [words]
      split_ifs at hadds hnext ⊢ <;> simp_all [words]
    · rw [adds] at hadds
      rw [next] at hnext
      conv_lhs => rw [words]
      split_ifs at hadds hnext ⊢ <;> simp_all [words]
    · cases hadds

/-- What is skipped behind a text changes no word. -/
theorem LineState.words_append {front back : List Char} (h : (st.after front).Skips back) :
    st.words (front ++ back) = st.words front := by
  induction front generalizing st with
  | nil => exact words_of_skips h
  | cons c front ih =>
    have hgap := @ih .gap
    have hword := fun s => @ih (.word s)
    rcases st with _ | _ | _ | _ | _
    · rw [after, List.foldl_cons, next] at h
      rw [List.cons_append, words, words]
      split_ifs at h ⊢
      · exact hgap h
      · rfl
      · exact hword _ h
      · rw [hword _ h]
    · rfl
    · rw [after, List.foldl_cons, next] at h
      rw [List.cons_append, words, words]
      split_ifs at h ⊢
      · rw [hgap h]
      · exact hword _ h
      · rw [hword _ h]
    · rw [after, List.foldl_cons, next] at h
      rw [List.cons_append, words, words]
      split_ifs at h ⊢
      · rw [hword _ h]
      · exact hword _ h
      · rw [hword _ h]
    · rw [List.cons_append, words, words, hword _ h]

theorem weight_append (words words' : List (List Char)) :
    weight (words ++ words') = weight words + weight words' := by
  rw [weight, List.map_append, List.sum_append]
  rfl

theorem weight_flatMap (lines : List (List Char)) (f : List Char → List (List Char)) :
    weight (lines.flatMap f) = (lines.map fun line => weight (f line)).sum := by
  induction lines with
  | nil => rfl
  | cons line lines ih => rw [List.flatMap_cons, weight_append, ih, List.map_cons, List.sum_cons]

theorem linesRead_append_linesLeft (lines : List (List Char)) :
    linesRead lines ++ linesLeft lines = lines := by
  induction lines with
  | nil => rfl
  | cons line lines ih =>
    rw [linesRead, linesLeft]
    split_ifs
    · exact congrArg (line :: ·) ih
    · rfl

theorem readPart_isPrefix (line : List Char) : readPart line <+: line :=
  (List.takeWhile_prefix _).trans (List.take_prefix 255 line)

/-- What a line adds: what its part adds that is read, and what the rest adds. -/
theorem weight_line (line : List Char) :
    weight (LineState.gap.words line) = weight (LineState.gap.words (readPart line)) +
      (LineState.gap.after (readPart line)).addsAll (line.drop (readPart line).length) := by
  have hsplit := List.prefix_iff_eq_append.mp (readPart_isPrefix line)
  conv_lhs => rw [← hsplit]
  rw [LineState.weight_words, LineState.addsAll_append, LineState.weight_words, Nat.add_assoc]

/-- The words that are read are all words exactly if nothing is lost. -/
theorem words_eq_iff {lines : List (List Char)} :
    (linesRead lines).flatMap (fun line => LineState.gap.words (readPart line)) =
        lines.flatMap LineState.gap.words ↔
      (∀ line ∈ linesRead lines,
        (LineState.gap.after (readPart line)).Skips (line.drop (readPart line).length)) ∧
      ∀ line ∈ linesLeft lines, LineState.gap.Skips line := by
  constructor
  · intro h
    have hweight := congrArg weight h
    conv_rhs at hweight => rw [← linesRead_append_linesLeft lines]
    rw [List.flatMap_append, weight_append, weight_flatMap, weight_flatMap, weight_flatMap]
      at hweight
    have hread : ((linesRead lines).map fun line => weight (LineState.gap.words line)).sum =
        ((linesRead lines).map fun line => weight (LineState.gap.words (readPart line))).sum +
        ((linesRead lines).map fun line =>
          (LineState.gap.after (readPart line)).addsAll (line.drop (readPart line).length)).sum := by
      rw [← List.sum_map_add]
      exact congrArg List.sum (List.map_congr_left fun line _ => weight_line line)
    refine ⟨fun line hline => LineState.skips_iff.mpr ?_, fun line hline =>
      LineState.skips_iff.mpr ?_⟩
    · refine List.sum_eq_zero_iff.mp (?_ : List.sum _ = 0) _
        (List.mem_map_of_mem (f := fun line => (LineState.gap.after (readPart line)).addsAll
          (line.drop (readPart line).length)) hline)
      omega
    · have hzero := List.sum_eq_zero_iff.mp
        (by omega : ((linesLeft lines).map fun line => weight (LineState.gap.words line)).sum = 0) _
        (List.mem_map_of_mem hline)
      rwa [LineState.weight_words, LineState.begun, Nat.zero_add] at hzero
  · rintro ⟨hparts, hlines⟩
    conv_rhs => rw [← linesRead_append_linesLeft lines]
    rw [List.flatMap_append]
    have hleft : (linesLeft lines).flatMap LineState.gap.words = [] := by
      rw [List.flatMap_eq_nil_iff]
      intro line hline
      exact LineState.words_of_skips (hlines line hline)
    rw [hleft, List.append_nil]
    refine List.flatMap_congr fun line hline => ?_
    have hsplit := List.prefix_iff_eq_append.mp (readPart_isPrefix line)
    conv_rhs => rw [← hsplit, LineState.words_append (hparts line hline)]

/-! ### The loop -/

variable {front rest : List Char} {room fuel : ℕ}

theorem getChars_newline (h : '\n' ∉ line) (hroom : line.length ≤ room) (rest : List Char) :
    getChars room (line ++ '\n' :: rest) = (line, { rest := rest }) := by
  induction line generalizing room with
  | nil => cases room <;> rfl
  | cons c line ih =>
    obtain ⟨hc, hline⟩ := List.ne_and_not_mem_of_not_mem_cons h
    obtain ⟨room, rfl⟩ := Nat.exists_eq_add_of_le' (Nat.le_trans (Nat.succ_pos _) hroom)
    rw [List.cons_append, getChars, if_neg (Ne.symm hc)]
    exact congrArg (Prod.map (c :: ·) id) (ih hline (Nat.le_of_succ_le_succ hroom))

theorem getChars_end (h : '\n' ∉ line) (hroom : line.length ≤ room) :
    getChars room line = (line, { rest := [], eof := true }) := by
  induction line generalizing room with
  | nil => cases room <;> rfl
  | cons c line ih =>
    obtain ⟨hc, hline⟩ := List.ne_and_not_mem_of_not_mem_cons h
    obtain ⟨room, rfl⟩ := Nat.exists_eq_add_of_le' (Nat.le_trans (Nat.succ_pos _) hroom)
    rw [getChars, if_neg (Ne.symm hc)]
    exact congrArg (Prod.map (c :: ·) id) (ih hline (Nat.le_of_succ_le_succ hroom))

theorem getChars_full (h : '\n' ∉ front) (hc : c ≠ '\n') (rest : List Char) :
    getChars front.length (front ++ c :: rest) = (front, { rest := c :: rest, fail := true }) := by
  induction front with
  | nil => exact if_neg hc
  | cons d front ih =>
    obtain ⟨hd, hfront⟩ := List.ne_and_not_mem_of_not_mem_cons h
    rw [List.cons_append, List.length_cons, getChars, if_neg (Ne.symm hd)]
    exact congrArg (Prod.map (d :: ·) id) (ih hfront)

/-- A line that is too long is cut, and the stream fails. -/
theorem getChars_long (h : '\n' ∉ line) (hroom : room < line.length) (rest : List Char) :
    ∃ s, getChars room (line ++ rest) = (line.take room, s) ∧ s.good = false := by
  obtain ⟨c, more, hdrop⟩ := List.exists_cons_of_length_pos
    (by rw [List.length_drop]; omega : 0 < (line.drop room).length)
  have hc : c ≠ '\n' := fun heq => h <| List.mem_of_mem_drop (i := room) <| by
    rw [hdrop, heq]
    exact List.mem_cons_self
  have hfront : '\n' ∉ line.take room := fun hmem => h (List.mem_of_mem_take hmem)
  have hlength : (line.take room).length = room := by
    rw [List.length_take]
    omega
  have hline : line ++ rest = line.take room ++ c :: (more ++ rest) := by
    rw [← List.cons_append, ← hdrop, ← List.append_assoc, List.take_append_drop]
  refine ⟨{ rest := c :: (more ++ rest), fail := true }, ?_, rfl⟩
  have hfull := getChars_full hfront hc (more ++ rest)
  rwa [← hline, hlength] at hfull

theorem readWords_bad {s : Istream} (h : s.good = false) : readWords fuel s = [] := by
  cases fuel with
  | zero => rfl
  | succ fuel =>
    rw [readWords, h]
    rfl

theorem textLines_newline (h : '\n' ∉ line) (rest : List Char) :
    textLines (line ++ '\n' :: rest) = line :: textLines rest :=
  List.splitOn_append_cons_self_of_not_mem h rest

theorem textLines_end (h : '\n' ∉ line) : textLines line = [line] := List.splitOn_eq_singleton h

theorem readPart_short (h : line.length < 256) : readPart line = cString line := by
  rw [readPart, List.take_of_length_le (Nat.le_of_lt_succ h)]

/-- The loop reads the lines up to the first one that does not fit the buffer. -/
theorem readWords_eq (hfuel : text.length < fuel) :
    readWords fuel { rest := text } =
      (linesRead (textLines text)).flatMap fun line => stringWords (readPart line) := by
  induction fuel generalizing text with
  | zero => exact absurd hfuel (Nat.not_lt_zero _)
  | succ fuel ih =>
    have hround : readWords (fuel + 1) { rest := text } =
        stringWords (cString (({ rest := text } : Istream).getline 256).1) ++
          readWords fuel (({ rest := text } : Istream).getline 256).2 := rfl
    rw [hround, Istream.getline]
    by_cases hempty : text = []
    · subst hempty
      rw [if_pos rfl, readWords_bad rfl]
      rfl
    · rw [if_neg hempty]
      by_cases hmem : '\n' ∈ text
      · obtain ⟨line, rest, rfl, hline⟩ := List.eq_append_cons_of_mem hmem
        rw [textLines_newline hline, linesRead]
        rcases Nat.lt_or_ge line.length 256 with hshort | hlong
        · rw [if_pos hshort, getChars_newline hline (Nat.le_of_lt_succ hshort), ih,
            List.flatMap_cons, readPart_short hshort]
          rw [List.length_append, List.length_cons] at hfuel
          omega
        · obtain ⟨s, hs, hbad⟩ := getChars_long hline hlong ('\n' :: rest)
          rw [if_neg (Nat.not_lt.mpr hlong), hs, readWords_bad hbad]
          simp [readPart]
      · rw [textLines_end hmem, linesRead]
        rcases Nat.lt_or_ge text.length 256 with hshort | hlong
        · rw [if_pos hshort, getChars_end hmem (Nat.le_of_lt_succ hshort), readWords_bad rfl]
          simp [linesRead, readPart_short hshort]
        · obtain ⟨s, hs, hbad⟩ := getChars_long hmem hlong []
          rw [List.append_nil] at hs
          rw [if_neg (Nat.not_lt.mpr hlong), hs, readWords_bad hbad]
          simp [readPart]

/-- The words that are read of a file. -/
def wordsRead (text : List Char) : List String :=
  (linesRead (textLines text)).flatMap fun line => stringWords (readPart line)

theorem configArgv_eq (text : List Char) :
    configArgv text =
      if (wordsRead text).length < 4096 then .ok (wordsRead text) else .error .assertion := by
  rw [configArgv, readWords_eq (Nat.lt_succ_self _)]
  rfl

/-- In a file without null characters these are the words that are partitioned. -/
theorem configWords_textLines (htext : '\x00' ∉ text) :
    configWords (textLines text) = wordsRead text := by
  have hlines : ∀ line ∈ textLines text, '\x00' ∉ line := fun line hline hmem =>
    htext (Splitting.mem_of_mem_splitOn hline hmem)
  rw [wordsRead]
  generalize textLines text = lines at hlines
  induction lines with
  | nil => rfl
  | cons line lines ih =>
    obtain ⟨hline, hlines⟩ := List.forall_mem_cons.mp hlines
    have hpart : readPart line = line.take 255 := by
      rw [readPart, cString, List.takeWhile_eq_self_iff]
      intro c hc
      have hne : c ≠ '\x00' := fun heq => hline (heq ▸ List.mem_of_mem_take hc)
      exact decide_eq_true hne
    rw [configWords, linesRead]
    split_ifs with hshort
    · rw [List.flatMap_cons, hpart, List.take_of_length_le (Nat.le_of_lt_succ hshort), ih hlines]
      rfl
    · rw [List.flatMap_singleton, hpart, stringWords, List.length_take]
      rw [Nat.min_eq_left (by omega)]

/-- `ParseConfigFile` partitions the arguments that are read of a file. -/
theorem parseConfigFile_text {env : Environment} {depth : ℕ} {file name : String} {p : Partition}
    (htext : '\x00' ∉ text)
    (hfile : env.configFile p.cfgFilenameStack file = some (name, textLines text)) :
    parseConfigFile env (depth + 1) file p =
      (configArgv text).bind fun argv =>
        (partitionFrom env (parseConfigFile env depth) 0
          { p with cfgFilenameStack := name :: p.cfgFilenameStack } argv).map
            fun p => { p with cfgFilenameStack := p.cfgFilenameStack.drop 1 } := by
  rw [parseConfigFile, hfile]
  simp only [configWords_textLines htext, configArgv_eq]
  split_ifs
  · simp only [Except.bind]
    cases partitionFrom env (parseConfigFile env depth) 0
      { p with cfgFilenameStack := name :: p.cfgFilenameStack } (wordsRead text) <;> rfl
  · rfl

/-- A configuration file with one argument. -/
def oneArgument : Environment where
  atoiGeneral _ := 0
  atoiGeneralUnsigned _ := 0
  scanPointer _ := none
  findTraceOpt _ := 0
  setParam _ _ := false
  builtWithTraceFlags := true
  runWithEventsOn := true
  configFile _ file := if file = "a.cfg" then some (file, textLines "-tr\n".toList) else none

/-- Nothing has been read of the command line. -/
def nothingRead : Partition where
  toVariables := ⟨false, false, false, false, 0, false, 0, none, none, none, false, [], [], []⟩

theorem parseConfigFile_oneArgument :
    parseConfigFile oneArgument 1 "a.cfg" nothingRead =
      (configArgv "-tr\n".toList).bind fun argv =>
        (partitionFrom oneArgument (parseConfigFile oneArgument 0) 0
          { nothingRead with cfgFilenameStack := ["a.cfg"] } argv).map
            fun p => { p with cfgFilenameStack := p.cfgFilenameStack.drop 1 } :=
  parseConfigFile_text (by decide) rfl

/-- Every word of every line is passed on, or the run is stopped, exactly if the words that are
read are too many for the array, or nothing else in the file belongs to a word. -/
theorem configArgv_allWords_iff (text : List Char) :
    (∀ argv, configArgv text = .ok argv → argv = allWords text) ↔
      4096 ≤ (wordsRead text).length ∨ NothingLost text := by
  have hwords : wordsRead text = allWords text ↔ NothingLost text := by
    have hread : wordsRead text =
        ((linesRead (textLines text)).flatMap fun line =>
          LineState.gap.words (readPart line)).map String.ofList := by
      rw [wordsRead, List.map_flatMap]
      exact List.flatMap_congr fun line _ => stringWords_eq _
    have hall : allWords text =
        ((textLines text).flatMap LineState.gap.words).map String.ofList := by
      rw [allWords, List.map_flatMap]
      exact List.flatMap_congr fun line _ => stringWords_eq _
    have hinjective : Function.Injective String.ofList := fun a b h => by
      simpa using congrArg String.toList h
    rw [hread, hall, (List.map_injective_iff.mpr hinjective).eq_iff, words_eq_iff]
    exact ⟨fun h => ⟨h.1, h.2⟩, fun h => ⟨h.parts, h.lines⟩⟩
  rw [configArgv_eq, ← hwords]
  split_ifs with hfits
  · refine ⟨fun h => .inr (h _ rfl), fun h argv hargv => ?_⟩
    rw [← Except.ok.inj hargv]
    exact h.resolve_left (Nat.not_le.mpr hfits)
  · exact ⟨fun _ => .inl (Nat.not_lt.mp hfits), fun _ argv hargv => by cases hargv⟩

/-- Behind a line that does not fit the buffer, the next line is ignored. -/
theorem configArgv_longLine :
    ¬ ∀ argv, configArgv (List.replicate 256 'x' ++ "\n-w".toList) = .ok argv →
      argv = allWords (List.replicate 256 'x' ++ "\n-w".toList) := by
  intro h
  rw [configArgv_eq, if_pos (by decide +kernel)] at h
  exact absurd (congrArg List.length (h _ rfl)) (by decide +kernel)

end Awb.Classic
