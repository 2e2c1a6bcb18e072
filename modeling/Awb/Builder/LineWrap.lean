import Awb.Builder.Makefiles
import Awb.Util.Words

/-! The value of a variable in a makefile, wrapped by `StringLineWrap`, and how it is read back. The
blank at which a line is cut stays at its end, also where the line has no room for it. -/

namespace Awb

/-- A word for a makefile. -/
structure MakeWord (word : Text) : Prop where
  ne_nil : word ≠ []
  noSpace : ∀ c ∈ word, inSpaceClass c = false
  noBackslash : '\\' ∉ word

def joinWords (words : List Text) : Text := [' '].intercalate words

/-! ### Reading -/

/-- A newline behind a backslash becomes a blank, and swallows the blanks behind it. -/
def joinLines : Bool → Text → Text
  | _, '\\' :: '\n' :: text => ' ' :: joinLines true text
  | skip, c :: text =>
    if skip ∧ c ∈ [' ', '\t'] then joinLines true text else c :: joinLines false text
  | _, [] => []

/-- The words that `make` finds. -/
def makeWords (text : Text) : List Text := blankWords (joinLines false text)

/-- A physical line without what the wrapping puts around it. -/
def physicalBody (line : Text) : Text :=
  (line.dropWhile (· ∈ [' ', '\t'])).rdropWhile (· = '\\')

def physicalBodies (text : Text) : List Text := (text.splitOn '\n').map physicalBody

/-- At most so long, or a single word that is longer. -/
def BodyFits (maxLength : ℕ) (words : List Text) (body : Text) : Prop :=
  body.length ≤ maxLength ∨
    ∃ word ∈ words, maxLength < word.length ∧ (body = word ∨ body = word ++ [' '])

/-! ### Cutting -/

/-- The lines of a list of words, each but the last with the blank that ends it. -/
inductive Wrapped (maxLength : ℕ) : List Text → List Text → Prop where
  | fits {words : List Text} (hne : words ≠ []) (hle : (joinWords words).length ≤ maxLength) :
      Wrapped maxLength words [joinWords words]
  | alone {word : Text} (hlt : maxLength < word.length) : Wrapped maxLength [word] [word]
  | inReach {chunk rest lines : List Text} (hne : chunk ≠ [])
      (hlt : (joinWords chunk).length < maxLength) (h : Wrapped maxLength rest lines) :
      Wrapped maxLength (chunk ++ rest) ((joinWords chunk ++ [' ']) :: lines)
  | behind {word : Text} {rest lines : List Text} (hle : maxLength ≤ word.length)
      (h : Wrapped maxLength rest lines) :
      Wrapped maxLength (word :: rest) ((word ++ [' ']) :: lines)

section Cutting
variable {maxLength : ℕ} {input before after : Text} {words : List Text}

theorem wrapIndex_cases (hmax : 0 < maxLength) (hlong : maxLength < input.length) :
    (∃ before after, input = before ++ ' ' :: after ∧ wrapIndex maxLength input = before.length ∧
      (before.length < maxLength ∨ ' ' ∉ before)) ∨
    ' ' ∉ input ∧ wrapIndex maxLength input = input.length := by
  unfold wrapIndex
  rw [if_neg hmax.ne']
  dsimp only
  cases hfound : (input.take maxLength).reverse.idxOf? ' ' with
  | some i =>
    obtain ⟨hi, hblank, -⟩ := List.idxOf?_eq_some_iff.mp hfound
    rw [List.length_reverse, List.length_take_of_le hlong.le] at hi
    simp only [List.getElem_reverse, List.getElem_take, List.length_take_of_le hlong.le] at hblank
    refine .inl ⟨input.take (maxLength - 1 - i), input.drop (maxLength - 1 - i + 1), ?_, ?_, ?_⟩
    · rw [← hblank, List.getElem_cons_drop, List.take_append_drop]
    · rw [List.length_take_of_le hlong.le, List.length_take_of_le (by omega)]
    · rw [List.length_take_of_le (by omega)]
      exact .inl (by omega)
  | none =>
    by_cases hmem : ' ' ∈ input
    · obtain ⟨before, after, rfl, hbefore⟩ := List.eq_append_cons_of_mem hmem
      refine .inl ⟨before, after, rfl, ?_, .inr hbefore⟩
      dsimp only
      rw [List.idxOf_append_of_notMem hbefore, List.idxOf_cons_self, Nat.add_zero]
    · exact .inr ⟨hmem, List.idxOf_of_notMem hmem⟩

/-- A blank in the text stands between two words. -/
theorem exists_of_joinWords (hwords : ∀ word ∈ words, ' ' ∉ word) (hne : words ≠ [])
    (h : joinWords words = before ++ ' ' :: after) :
    ∃ chunk rest, words = chunk ++ rest ∧ chunk ≠ [] ∧ rest ≠ [] ∧
      joinWords chunk = before ∧ joinWords rest = after := by
  refine ⟨before.splitOn ' ', after.splitOn ' ', ?_, List.splitOn_ne_nil _ _,
    List.splitOn_ne_nil _ _, List.intercalate_splitOn _, List.intercalate_splitOn _⟩
  have hsplit := List.splitOn_intercalate ' ' hwords hne
  rw [← hsplit, show [' '].intercalate words = _ from h, List.splitOn_append_cons_self]

@[simp] theorem joinWords_singleton (word : Text) : joinWords [word] = word :=
  List.intercalate_singleton

/-- Without a blank there is one word only. -/
theorem eq_singleton_of_joinWords (hwords : ∀ word ∈ words, ' ' ∉ word) (hne : words ≠ [])
    (hblank : ' ' ∉ joinWords words) : ∃ word, words = [word] :=
  ⟨_, (List.splitOn_intercalate ' ' hwords hne).symm.trans (List.splitOn_eq_singleton hblank)⟩

theorem joinWords_ne_nil (hwords : ∀ word ∈ words, word ≠ []) (hne : words ≠ []) :
    joinWords words ≠ [] := by
  obtain ⟨word, rest, rfl⟩ := List.exists_cons_of_ne_nil hne
  have hword := hwords word (List.mem_cons_self ..)
  rcases rest with _ | ⟨next, rest⟩
  · rwa [joinWords, List.intercalate_singleton]
  · rw [joinWords, List.intercalate_cons_cons]
    exact List.append_ne_nil_of_left_ne_nil (List.append_ne_nil_of_left_ne_nil hword _) _

theorem joinWords_cons_cons (word next : Text) (rest : List Text) :
    joinWords (word :: next :: rest) = word ++ ' ' :: joinWords (next :: rest) := by
  rw [joinWords, List.intercalate_cons_cons, List.append_assoc, List.singleton_append]
  rfl

theorem wrapLines_succ {fuel : ℕ} (hne : input ≠ []) : wrapLines maxLength (fuel + 1) input =
    if input.length > maxLength then
      input.take (wrapIndex maxLength input + 1) ::
        wrapLines maxLength fuel (input.drop (wrapIndex maxLength input + 1))
    else [input] := by
  obtain ⟨c, rest, rfl⟩ := List.exists_cons_of_ne_nil hne
  rfl

theorem wrapLines_nil (fuel : ℕ) : wrapLines maxLength fuel [] = [] := by cases fuel <;> rfl

/-- The loop cuts between words only. -/
theorem wrapped_wrapLines (hmax : 0 < maxLength) {fuel : ℕ}
    (hwords : ∀ word ∈ words, word ≠ [] ∧ ' ' ∉ word) (hne : words ≠ [])
    (hfuel : (joinWords words).length ≤ fuel) :
    Wrapped maxLength words (wrapLines maxLength fuel (joinWords words)) := by
  have hjoin := joinWords_ne_nil (fun word hword => (hwords word hword).1) hne
  induction fuel generalizing words with
  | zero => exact absurd (List.eq_nil_of_length_eq_zero (Nat.le_zero.mp hfuel)) hjoin
  | succ fuel ih =>
    rw [wrapLines_succ hjoin]
    by_cases hlong : (joinWords words).length > maxLength
    · rw [if_pos hlong]
      rcases wrapIndex_cases hmax hlong with ⟨before, after, heq, hindex, hreach⟩ | ⟨hblank, hindex⟩
      · obtain ⟨chunk, rest, rfl, hchunk, hrest, rfl, rfl⟩ :=
          exists_of_joinWords (fun word hword => (hwords word hword).2) hne heq
        have hwords' : ∀ word ∈ rest, word ≠ [] ∧ ' ' ∉ word := fun word hword =>
          hwords word (List.mem_append_right _ hword)
        have hshort : (joinWords rest).length ≤ fuel := by
          rw [heq, List.length_append, List.length_cons] at hfuel
          omega
        have hwrapped := ih hwords' hrest hshort
          (joinWords_ne_nil (fun word hword => (hwords' word hword).1) hrest)
        have hcut : joinWords chunk ++ ' ' :: joinWords rest =
            (joinWords chunk ++ [' ']) ++ joinWords rest := by simp
        have hlength : wrapIndex maxLength (joinWords (chunk ++ rest)) + 1 =
            (joinWords chunk ++ [' ']).length := by
          rw [hindex, List.length_append, List.length_singleton]
        rw [hlength, heq, hcut, List.take_left, List.drop_left]
        by_cases hlt : (joinWords chunk).length < maxLength
        · exact .inReach hchunk hlt hwrapped
        · -- The first word is too long for the line, and it is cut behind the word.
          obtain ⟨word, rfl⟩ := eq_singleton_of_joinWords
            (fun word hword => (hwords word (List.mem_append_left _ hword)).2) hchunk
            (hreach.resolve_left hlt)
          rw [joinWords_singleton] at hlt ⊢
          exact .behind (Nat.le_of_not_lt hlt) hwrapped
      · obtain ⟨word, rfl⟩ :=
          eq_singleton_of_joinWords (fun word hword => (hwords word hword).2) hne hblank
        rw [joinWords_singleton] at hlong hindex ⊢
        rw [hindex, List.take_of_length_le (Nat.le_succ _), List.drop_of_length_le (Nat.le_succ _),
          wrapLines_nil]
        exact .alone hlong
    · rw [if_neg hlong]
      exact .fits hne (Nat.le_of_not_lt hlong)

end Cutting

/-! ### The lengths -/

section Lengths
variable {maxLength : ℕ} {words lines all : List Text} {word : Text}

theorem length_le_joinWords (h : word ∈ words) : word.length ≤ (joinWords words).length := by
  induction words with
  | nil => cases h
  | cons first words ih =>
    rcases words with _ | ⟨next, rest⟩
    · rw [List.mem_singleton.mp h, joinWords_singleton]
    · rw [joinWords_cons_cons, List.length_append, List.length_cons]
      rcases List.mem_cons.mp h with rfl | h
      · omega
      · have hle := ih h
        omega

/-- A word that is not the last is shorter than the text. -/
theorem length_lt_joinWords (h : word ∈ words.dropLast) :
    word.length < (joinWords words).length := by
  induction words with
  | nil => cases h
  | cons first words ih =>
    rcases words with _ | ⟨next, rest⟩
    · cases h
    · rw [joinWords_cons_cons, List.length_append, List.length_cons]
      rw [List.dropLast_cons_of_ne_nil (List.cons_ne_nil _ _)] at h
      rcases List.mem_cons.mp h with rfl | h
      · omega
      · have hlt := ih h
        omega

theorem Wrapped.ne_nil (h : Wrapped maxLength words lines) : words ≠ [] := by
  cases h with
  | fits hne _ => exact hne
  | alone _ => exact List.cons_ne_nil _ _
  | inReach hne _ _ => exact List.append_ne_nil_of_left_ne_nil hne _
  | behind _ _ => exact List.cons_ne_nil _ _

/-- The blank is too much behind a word that fills the line. -/
theorem bodyFits_concat_iff (hall : ∀ word ∈ all, ' ' ∉ word) (hword : word ∈ all)
    (hle : maxLength ≤ word.length) :
    BodyFits maxLength all (word ++ [' ']) ↔ word.length ≠ maxLength := by
  constructor
  · rintro (hfits | ⟨word', hword', hlt, heq | heq⟩) rfl
    · rw [List.length_append, List.length_singleton] at hfits
      omega
    · exact hall word' hword' (heq ▸ List.mem_append_right _ (List.mem_cons_self ..))
    · rw [List.append_cancel_right heq] at hlt
      exact lt_irrefl _ hlt
  · exact fun hne => .inr ⟨word, hword, Nat.lt_of_le_of_ne hle hne.symm, .inr rfl⟩

/-- The lines have the length they should unless a word that is not the last fills a line. -/
theorem Wrapped.bodyFits_iff (h : Wrapped maxLength words lines)
    (hall : ∀ word ∈ all, ' ' ∉ word) (hwords : words ⊆ all) :
    (∀ line ∈ lines, BodyFits maxLength all line) ↔
      ∀ word ∈ words.dropLast, word.length ≠ maxLength := by
  induction h with
  | fits hne hle =>
    refine iff_of_true (fun line hline => ?_) fun word hword heq => ?_
    · rw [List.mem_singleton.mp hline]
      exact .inl hle
    · exact absurd (length_lt_joinWords hword) (by omega)
  | @alone word hlt =>
    refine iff_of_true (fun line hline => ?_) fun word hword => by cases hword
    rw [List.mem_singleton.mp hline]
    exact .inr ⟨word, hwords (List.mem_cons_self ..), hlt, .inl rfl⟩
  | @inReach chunk rest lines hne hlt h ih =>
    have hfirst : BodyFits maxLength all (joinWords chunk ++ [' ']) := by
      refine .inl ?_
      rw [List.length_append, List.length_singleton]
      exact hlt
    have hchunk : ∀ word ∈ chunk, word.length ≠ maxLength := fun word hword =>
      (Nat.lt_of_le_of_lt (length_le_joinWords hword) hlt).ne
    rw [List.forall_mem_cons, and_iff_right hfirst, List.dropLast_append_of_ne_nil h.ne_nil,
      List.forall_mem_append, and_iff_right hchunk]
    exact ih fun word hword => hwords (List.mem_append_right _ hword)
  | @behind word rest lines hle h ih =>
    rw [List.forall_mem_cons, List.dropLast_cons_of_ne_nil h.ne_nil, List.forall_mem_cons,
      bodyFits_concat_iff hall (hwords (List.mem_cons_self ..)) hle]
    exact and_congr_right fun _ => ih fun word hword => hwords (List.mem_cons_of_mem _ hword)

theorem rdropWhile_of_not_mem {c : Char} (h : c ∉ word) : word.rdropWhile (· = c) = word := by
  rw [List.rdropWhile_eq_self_iff]
  intro hne
  have hlast : word.getLast hne ≠ c := fun heq => h (heq ▸ List.getLast_mem hne)
  simpa using hlast

/-- Without the blank at its end every line has the length it should. -/
theorem Wrapped.fits_without_blank (h : Wrapped maxLength words lines)
    (hall : ∀ word ∈ all, ' ' ∉ word) (hwords : words ⊆ all) : ∀ line ∈ lines,
      BodyFits maxLength all (line.rdropWhile (· = ' ')) := by
  have hconcat (text : Text) : (text ++ [' ']).rdropWhile (· = ' ') =
      text.rdropWhile (· = ' ') := List.rdropWhile_concat_pos _ _ _ (decide_eq_true rfl)
  have hle (text : Text) : (text.rdropWhile (· = ' ')).length ≤ text.length :=
    (List.rdropWhile_prefix _ text).length_le
  induction h with
  | fits hne hfits =>
    intro line hline
    rw [List.mem_singleton.mp hline]
    exact .inl ((hle _).trans hfits)
  | @alone word hlt =>
    intro line hline
    have hword := hwords (List.mem_cons_self ..)
    rw [List.mem_singleton.mp hline, rdropWhile_of_not_mem (hall word hword)]
    exact .inr ⟨word, hword, hlt, .inl rfl⟩
  | @inReach chunk rest lines hne hlt h ih =>
    refine List.forall_mem_cons.mpr ⟨.inl ?_, ih fun word hword =>
      hwords (List.mem_append_right _ hword)⟩
    rw [hconcat]
    exact (hle _).trans hlt.le
  | @behind word rest lines hlong h ih =>
    have hword := hwords (List.mem_cons_self ..)
    refine List.forall_mem_cons.mpr ⟨?_, ih fun word hword =>
      hwords (List.mem_cons_of_mem _ hword)⟩
    rw [hconcat, rdropWhile_of_not_mem (hall word hword)]
    rcases Nat.eq_or_lt_of_le hlong with heq | hlt
    · exact .inl heq.ge
    · exact .inr ⟨word, hword, hlt, .inl rfl⟩

end Lengths

/-! ### The text read back -/

/-- A line that the wrapping may write: it begins with a word. -/
structure PlainBody (line : Text) : Prop where
  starts : ∃ c rest, line = c :: rest ∧ c ∉ [' ', '\t']
  noBackslash : '\\' ∉ line
  noNewline : '\n' ∉ line

/-- The wrapped lines, each behind a line break. -/
def brokenLines (lines : List Text) : Text :=
  lines.flatMap fun line => '\\' :: '\n' :: ' ' :: ' ' :: line

section Reading
variable {maxLength : ℕ} {words lines : List Text} {word line tail : Text} {c : Char}

theorem MakeWord.not_blank (h : MakeWord word) (hc : c ∈ word) : c ∉ [' ', '\t'] := by
  have hspace := h.noSpace c hc
  intro hblank
  simp only [List.mem_cons, List.not_mem_nil, or_false] at hblank
  rcases hblank with rfl | rfl <;> exact absurd hspace (by decide)

theorem MakeWord.noBlank (h : MakeWord word) : ' ' ∉ word :=
  fun hmem => h.not_blank hmem (List.mem_cons_self ..)

theorem plainBody_joinWords (hwords : ∀ word ∈ words, MakeWord word) (hne : words ≠ []) :
    PlainBody (joinWords words) := by
  induction words with
  | nil => exact absurd rfl hne
  | cons first words ih =>
    have hfirst := hwords first (List.mem_cons_self ..)
    have hnewline : '\n' ∉ first := fun hmem => absurd (hfirst.noSpace _ hmem) (by decide)
    obtain ⟨c, rest, rfl⟩ := List.exists_cons_of_ne_nil hfirst.ne_nil
    have hc : c ∉ [' ', '\t'] := hfirst.not_blank (List.mem_cons_self ..)
    rcases words with _ | ⟨next, words⟩
    · rw [joinWords_singleton]
      exact ⟨⟨c, rest, rfl, hc⟩, hfirst.noBackslash, hnewline⟩
    · have hplain := ih (fun word hword => hwords word (List.mem_cons_of_mem _ hword))
        (List.cons_ne_nil _ _)
      rw [joinWords_cons_cons]
      refine ⟨⟨c, _, List.cons_append, hc⟩, ?_, ?_⟩
      · simp only [List.mem_append, List.mem_cons, not_or]
        exact ⟨by simpa using hfirst.noBackslash, by decide, hplain.noBackslash⟩
      · simp only [List.mem_append, List.mem_cons, not_or]
        exact ⟨by simpa using hnewline, by decide, hplain.noNewline⟩

theorem PlainBody.concat (h : PlainBody line) : PlainBody (line ++ [' ']) := by
  obtain ⟨⟨c, rest, rfl, hc⟩, hbackslash, hnewline⟩ := h
  exact ⟨⟨c, rest ++ [' '], rfl, hc⟩, by simpa using hbackslash, by simpa using hnewline⟩

theorem Wrapped.plainBody (h : Wrapped maxLength words lines)
    (hwords : ∀ word ∈ words, MakeWord word) : ∀ line ∈ lines, PlainBody line := by
  induction h with
  | fits hne hle => exact List.forall_mem_singleton.mpr (plainBody_joinWords hwords hne)
  | @alone word hlt =>
    rw [List.forall_mem_singleton, ← joinWords_singleton word]
    exact plainBody_joinWords hwords (List.cons_ne_nil _ _)
  | inReach hne hlt h ih =>
    obtain ⟨hchunk, hrest⟩ := List.forall_mem_append.mp hwords
    exact List.forall_mem_cons.mpr ⟨(plainBody_joinWords hchunk hne).concat, ih hrest⟩
  | @behind word rest lines hle h ih =>
    obtain ⟨hword, hrest⟩ := List.forall_mem_cons.mp hwords
    refine List.forall_mem_cons.mpr ⟨?_, ih hrest⟩
    rw [← joinWords_singleton word]
    exact (plainBody_joinWords (List.forall_mem_singleton.mpr hword)
      (List.cons_ne_nil _ _)).concat

theorem MakeWord.blankWords_eq (h : MakeWord word) : blankWords word = [word] := by
  have hblank : ∀ c ∈ word, Inifile.isBlank c = false := fun c hc =>
    Bool.eq_false_iff.mpr fun hblank => h.not_blank hc (by simpa [Inifile.isBlank] using hblank)
  rw [blankWords, List.splitOnP_eq_singleton hblank]
  simp [h.ne_nil]

theorem blankWords_joinWords (hwords : ∀ word ∈ words, MakeWord word) :
    blankWords (joinWords words) = words := by
  induction words with
  | nil => rfl
  | cons first words ih =>
    obtain ⟨hfirst, hrest⟩ := List.forall_mem_cons.mp hwords
    rcases words with _ | ⟨next, words⟩
    · rw [joinWords_singleton, hfirst.blankWords_eq]
    · rw [joinWords_cons_cons, blankWords_append rfl, hfirst.blankWords_eq, ih hrest]
      rfl

theorem Wrapped.flatMap_blankWords (h : Wrapped maxLength words lines)
    (hwords : ∀ word ∈ words, MakeWord word) : lines.flatMap blankWords = words := by
  have hnil : blankWords [] = [] := rfl
  induction h with
  | fits hne hle => rw [List.flatMap_singleton, blankWords_joinWords hwords]
  | alone hlt =>
    rw [List.flatMap_singleton, (List.forall_mem_singleton.mp hwords).blankWords_eq]
  | inReach hne hlt h ih =>
    obtain ⟨hchunk, hrest⟩ := List.forall_mem_append.mp hwords
    rw [List.flatMap_cons, blankWords_append rfl, blankWords_joinWords hchunk, hnil,
      List.append_nil, ih hrest]
  | behind hle h ih =>
    obtain ⟨hword, hrest⟩ := List.forall_mem_cons.mp hwords
    rw [List.flatMap_cons, blankWords_append rfl, hword.blankWords_eq, hnil, List.append_nil,
      ih hrest, List.singleton_append]

theorem joinLines_append (h : '\\' ∉ line) :
    joinLines false (line ++ tail) = line ++ joinLines false tail := by
  induction line with
  | nil => rfl
  | cons c line ih =>
    obtain ⟨hc, hline⟩ := not_or.mp (mt List.mem_cons.mpr h)
    have hone : joinLines false (c :: (line ++ tail)) = c :: joinLines false (line ++ tail) := by
      rw [joinLines]
      · simp
      · intro rest hbackslash
        exact absurd hbackslash.symm hc
    rw [List.cons_append, hone, ih hline, List.cons_append]

/-- Behind a line break the blanks are skipped up to the first word. -/
theorem joinLines_break (h : PlainBody line) (skip : Bool) :
    joinLines skip ('\\' :: '\n' :: ' ' :: ' ' :: (line ++ tail)) =
      ' ' :: (line ++ joinLines false tail) := by
  obtain ⟨⟨c, rest, rfl, hc⟩, hbackslash, -⟩ := h
  obtain ⟨hcb, hrest⟩ := not_or.mp (mt List.mem_cons.mpr hbackslash)
  have hfirst : joinLines true (c :: (rest ++ tail)) = c :: joinLines false (rest ++ tail) := by
    rw [joinLines]
    · rw [if_neg (by simpa using hc)]
    · intro rest hbackslash
      exact absurd hbackslash.symm hcb
  have hskip : joinLines true (' ' :: ' ' :: c :: (rest ++ tail)) =
      joinLines true (c :: (rest ++ tail)) := rfl
  rw [joinLines, List.cons_append, hskip, hfirst, joinLines_append hrest, List.cons_append]

theorem joinLines_brokenLines (hlines : ∀ line ∈ lines, PlainBody line) :
    joinLines false (brokenLines lines) = lines.flatMap fun line => ' ' :: line := by
  induction lines with
  | nil => rfl
  | cons line lines ih =>
    obtain ⟨hline, hlines⟩ := List.forall_mem_cons.mp hlines
    rw [brokenLines, List.flatMap_cons, List.flatMap_cons]
    exact (joinLines_break hline false).trans (congrArg (' ' :: line ++ ·) (ih hlines))

theorem blankWords_lines (lines : List Text) :
    blankWords (lines.flatMap fun line => ' ' :: line) = lines.flatMap blankWords := by
  have hblank (text : Text) : blankWords (' ' :: text) = blankWords text :=
    blankWords_cons rfl
  induction lines with
  | nil => rfl
  | cons line lines ih =>
    rw [List.flatMap_cons, List.flatMap_cons, List.cons_append, hblank]
    rcases lines with _ | ⟨next, lines⟩
    · simp
    · rw [List.flatMap_cons, List.cons_append] at ih ⊢
      rw [blankWords_append rfl, ← hblank (next ++ _), ih]

/-- The words are read back from the lines. -/
theorem Wrapped.makeWords_eq (h : Wrapped maxLength words lines)
    (hwords : ∀ word ∈ words, MakeWord word) : makeWords (brokenLines lines) = words := by
  rw [makeWords, joinLines_brokenLines (h.plainBody hwords), blankWords_lines,
    h.flatMap_blankWords hwords]

theorem physicalBody_concat (line : Text) :
    physicalBody (line ++ ['\\']) = physicalBody line := by
  rw [physicalBody, dropWhile_append_stop (by decide)]
  exact List.rdropWhile_concat_pos _ _ _ (decide_eq_true rfl)

theorem PlainBody.physicalBody_eq (h : PlainBody line) :
    physicalBody (' ' :: ' ' :: line) = line := by
  obtain ⟨⟨c, rest, rfl, hc⟩, hbackslash, -⟩ := h
  have hdrop : (' ' :: ' ' :: c :: rest).dropWhile (· ∈ [' ', '\t']) = c :: rest := by
    rw [List.dropWhile_cons_of_pos (by decide), List.dropWhile_cons_of_pos (by decide),
      List.dropWhile_cons_of_neg (by simpa using hc)]
  rw [physicalBody, hdrop, rdropWhile_of_not_mem hbackslash]

theorem map_physicalBody (hlines : ∀ line ∈ lines, PlainBody line) {front : Text}
    (hfront : '\n' ∉ front) :
    physicalBodies (front ++ brokenLines lines) = physicalBody front :: lines := by
  induction lines generalizing front with
  | nil =>
    rw [brokenLines, List.flatMap_nil, List.append_nil, physicalBodies,
      List.splitOn_eq_singleton hfront, List.map_singleton]
  | cons line lines ih =>
    obtain ⟨hline, hlines⟩ := List.forall_mem_cons.mp hlines
    have hnewline : '\n' ∉ ' ' :: ' ' :: line := by simpa using hline.noNewline
    have hrest := ih hlines hnewline
    have htext : front ++ brokenLines (line :: lines) =
        (front ++ ['\\']) ++ '\n' :: (' ' :: ' ' :: line ++ brokenLines lines) := by
      simp [brokenLines]
    rw [htext, physicalBodies, List.splitOn_append_cons_self_of_not_mem (by simpa using hfront),
      List.map_cons, physicalBody_concat]
    rw [physicalBodies] at hrest
    rw [hrest, hline.physicalBody_eq]

end Reading

/-! ### `MakefileString` -/

section MakefileString
variable {stringList : List Text}

theorem flatMap_concat (hne : stringList ≠ []) :
    stringList.flatMap (· ++ [' ']) = joinWords stringList ++ [' '] := by
  induction stringList with
  | nil => exact absurd rfl hne
  | cons first rest ih =>
    rcases rest with _ | ⟨next, rest⟩
    · simp
    · rw [List.flatMap_cons, ih (List.cons_ne_nil _ _), joinWords_cons_cons]
      simp

theorem exists_last (hwords : ∀ word ∈ stringList, MakeWord word) (hne : stringList ≠ []) :
    ∃ front d, joinWords stringList = front ++ [d] ∧ d ∉ [' ', '\t'] := by
  induction stringList with
  | nil => exact absurd rfl hne
  | cons first rest ih =>
    obtain ⟨hfirst, hrest⟩ := List.forall_mem_cons.mp hwords
    rcases rest with _ | ⟨next, rest⟩
    · rcases List.eq_nil_or_concat first with hnil | ⟨front, d, heq⟩
      · exact absurd hnil hfirst.ne_nil
      · rw [List.concat_eq_append] at heq
        refine ⟨front, d, by rw [joinWords_singleton, heq], hfirst.not_blank ?_⟩
        rw [heq]
        exact List.mem_append_right _ (List.mem_cons_self ..)
    · obtain ⟨front, d, heq, hd⟩ := ih hrest (List.cons_ne_nil _ _)
      refine ⟨first ++ ' ' :: front, d, ?_, hd⟩
      rw [joinWords_cons_cons, heq]
      simp

theorem stringTrim_flatMap (hwords : ∀ word ∈ stringList, MakeWord word) (hne : stringList ≠ []) :
    stringTrim (stringList.flatMap (· ++ [' '])) = joinWords stringList := by
  obtain ⟨⟨c, rest, hfirst, hc⟩, -, -⟩ := plainBody_joinWords hwords hne
  obtain ⟨front, d, hlast, hd⟩ := exists_last hwords hne
  have hleft : trimLeft [' ', '\t'] (joinWords stringList ++ [' ']) =
      joinWords stringList ++ [' '] := by
    rw [hfirst]
    exact List.dropWhile_cons_of_neg (by simpa using hc)
  have hright : trimLeft [' ', '\t'] (joinWords stringList ++ [' ']).reverse =
      (joinWords stringList).reverse := by
    rw [hlast]
    simp only [List.reverse_append, List.reverse_singleton, List.singleton_append]
    exact (List.dropWhile_cons_of_pos (by decide)).trans
      (List.dropWhile_cons_of_neg (by simpa using hd))
  rw [flatMap_concat hne, stringTrim, hleft, hright, List.reverse_reverse]

theorem makefileString_eq (hwords : ∀ word ∈ stringList, MakeWord word) (hne : stringList ≠ []) :
    ∃ lines, Wrapped 74 stringList lines ∧ makefileString stringList = brokenLines lines := by
  refine ⟨wrapLines 74 (joinWords stringList).length (joinWords stringList), ?_, ?_⟩
  · exact wrapped_wrapLines (by decide)
      (fun word hword => ⟨(hwords word hword).ne_nil, (hwords word hword).noBlank⟩) hne le_rfl
  · rw [makefileString, stringTrim_flatMap hwords hne, stringLineWrap]
    cases wrapLines 74 (joinWords stringList).length (joinWords stringList) <;> rfl

/-- The words come back in any case, and the lines have the length they should up to the blank at
their end. With it they do exactly if no word but the last has 74 characters. -/
theorem makefileString_iff (stringList : List Text)
    (hwords : ∀ word ∈ stringList, MakeWord word) :
    (makeWords (makefileString stringList) = stringList ∧
      ∀ body ∈ physicalBodies (makefileString stringList),
        BodyFits 74 stringList (body.rdropWhile (· = ' '))) ∧
    ((makeWords (makefileString stringList) = stringList ∧
      ∀ body ∈ physicalBodies (makefileString stringList), BodyFits 74 stringList body) ↔
        ∀ word ∈ stringList.dropLast, word.length ≠ 74) := by
  by_cases hne : stringList = []
  · subst hne
    have hempty : ∀ body ∈ physicalBodies (makefileString []), body = [] :=
      List.forall_mem_singleton.mpr rfl
    refine ⟨⟨rfl, fun body hbody => ?_⟩, iff_of_true ⟨rfl, fun body hbody => ?_⟩ (by simp)⟩
    · rw [hempty body hbody]
      exact .inl (Nat.zero_le _)
    · rw [hempty body hbody]
      exact .inl (Nat.zero_le _)
  · obtain ⟨lines, hwrapped, htext⟩ := makefileString_eq hwords hne
    have hread : makeWords (makefileString stringList) = stringList := by
      rw [htext]
      exact hwrapped.makeWords_eq hwords
    have hbodies : physicalBodies (makefileString stringList) = [] :: lines := by
      rw [htext]
      exact @map_physicalBody lines (hwrapped.plainBody hwords) [] List.not_mem_nil
    have hblank : ∀ word ∈ stringList, ' ' ∉ word := fun word hword => (hwords word hword).noBlank
    have hempty : BodyFits 74 stringList [] := .inl (Nat.zero_le _)
    rw [hbodies, List.forall_mem_cons, List.forall_mem_cons, and_iff_right hempty]
    refine ⟨⟨hread, hempty, hwrapped.fits_without_blank hblank fun _ h => h⟩, ?_⟩
    rw [and_iff_right hread]
    exact hwrapped.bodyFits_iff hblank fun _ h => h

instance (word : Text) : Decidable (MakeWord word) :=
  decidable_of_iff (word ≠ [] ∧ word.any inSpaceClass = false ∧ '\\' ∉ word)
    ⟨fun h => ⟨h.1, by simpa using h.2.1, h.2.2⟩, fun h => ⟨h.1, by simpa using h.2, h.3⟩⟩

theorem makeWords_sources :
    makeWords (makefileString ["a.o".toList, "b.o".toList]) = ["a.o".toList, "b.o".toList] :=
  (makefileString_iff ["a.o".toList, "b.o".toList] (by decide +kernel)).1.1

/-- A name of 74 characters, with another behind it. -/
def fullLine : List Text := [List.replicate 74 'a', ['b']]

theorem not_bodyFits_fullLine :
    ¬ ∀ body ∈ physicalBodies (makefileString fullLine), BodyFits 74 fullLine body := by
  intro h
  have hline := h (List.replicate 74 'a' ++ [' ']) (by decide +kernel)
  rcases hline with hle | ⟨word, hword, hlt, -⟩
  · exact absurd hle (by decide)
  · rcases List.mem_cons.mp hword with rfl | hword
    · exact absurd hlt (by decide)
    · rw [List.mem_singleton.mp hword] at hlt
      exact absurd hlt (by decide)

end MakefileString
end Awb
