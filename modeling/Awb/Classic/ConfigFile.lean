import Awb.Classic.CommandLine
import Mathlib.Data.List.TakeWhile
import Mathlib.Tactic

/-! Words that are written into a line of a configuration file in double quotes are read back by
`ParseConfigFile` and `scan_arg_value`. -/

namespace Awb.Classic

/-- A line of words in double quotes, each with the white space behind it. -/
def quotedLine (lead : List Char) (words : List (List Char × List Char)) : List Char :=
  lead ++ words.flatMap fun word => '"' :: (word.1 ++ '"' :: word.2)

/-- Words without quotes and backslashes, with white space between any two of them. -/
structure Quotable (words : List (List Char × List Char)) : Prop where
  plain : ∀ word ∈ words, ∀ c ∈ word.1, c ≠ '"' ∧ c ≠ '\\'
  blank : ∀ word ∈ words, ∀ c ∈ word.2, isSpace c = true
  apart : ∀ word ∈ words.dropLast, word.2 ≠ []

variable {words : List (List Char × List Char)} {lead word gap rest line : List Char}

/-- The rest of a word up to its closing quote. -/
theorem scanArgValue_quote (hword : ∀ c ∈ word, c ≠ '"' ∧ c ≠ '\\') (rest : List Char) :
    scanArgValue .quote (word ++ '"' :: rest) =
      (scanArgValue .normal rest).map (word ++ ·) id := by
  induction word with
  | nil =>
    rw [List.nil_append, scanArgValue, if_neg (by decide), if_pos rfl]
    rfl
  | cons c word ih =>
    obtain ⟨⟨hquote, hslash⟩, hrest⟩ := List.forall_mem_cons.mp hword
    rw [List.cons_append, scanArgValue, if_neg hslash, if_neg hquote, ih hrest]
    rfl

/-- A quoted word is read, with the first blank behind it. -/
theorem scanArgValue_quoted (hword : ∀ c ∈ word, c ≠ '"' ∧ c ≠ '\\')
    (hrest : ∀ c, rest.head? = some c → isSpace c = true) :
    scanArgValue .normal ('"' :: (word ++ '"' :: rest)) = (word, rest.drop 1) := by
  rw [scanArgValue, if_neg (by decide), if_pos rfl, scanArgValue_quote hword]
  cases rest with
  | nil => exact Prod.ext (List.append_nil word) rfl
  | cons c rest =>
    rw [scanArgValue, if_pos (hrest c rfl)]
    exact Prod.ext (List.append_nil word) rfl

theorem Quotable.tail {first : List Char × List Char} (h : Quotable (first :: words)) :
    Quotable words where
  plain word hword := h.plain word (List.mem_cons_of_mem first hword)
  blank word hword := h.blank word (List.mem_cons_of_mem first hword)
  apart word hword := h.apart word <| by
    cases words with
    | nil => cases hword
    | cons second words => exact List.mem_cons_of_mem first hword

/-- Behind a word there is white space or the end of the line. -/
theorem Quotable.behind {first : List Char × List Char} (h : Quotable (first :: words)) :
    (∀ c, (quotedLine first.2 words).head? = some c → isSpace c = true) ∧
      ∃ lead, (quotedLine first.2 words).drop 1 = quotedLine lead words ∧
        ∀ c ∈ lead, isSpace c = true := by
  obtain ⟨word, gap⟩ := first
  have hblank : ∀ c ∈ gap, isSpace c = true := h.blank _ List.mem_cons_self
  cases gap with
  | cons b gap =>
    refine ⟨fun c hc => ?_, gap, rfl, fun c hc => hblank c (List.mem_cons_of_mem b hc)⟩
    exact Option.some.inj hc ▸ hblank b List.mem_cons_self
  | nil =>
    cases words with
    | nil => exact ⟨fun c hc => (by cases hc), [], rfl, hblank⟩
    | cons second words => exact absurd rfl (h.apart _ List.mem_cons_self)

/-- All words of the line are read, by induction on them. -/
theorem lineWords_quotedLine {fuel : ℕ} (h : Quotable words)
    (hlead : ∀ c ∈ lead, isSpace c = true) (hfuel : (quotedLine lead words).length ≤ fuel) :
    lineWords fuel (quotedLine lead words) = words.map fun word => .ofList word.1 := by
  induction words generalizing lead fuel with
  | nil =>
    have hdrop : (quotedLine lead []).dropWhile isSpace = [] := by
      rw [quotedLine, List.flatMap_nil, List.append_nil, List.dropWhile_eq_nil_iff]
      exact hlead
    cases fuel with
    | zero => rfl
    | succ fuel =>
      rw [lineWords, hdrop]
      rfl
  | cons first words ih =>
    obtain ⟨word, gap⟩ := first
    obtain ⟨hhead, next, hnext, hnextBlank⟩ := h.behind
    have hline : quotedLine lead ((word, gap) :: words) =
        lead ++ '"' :: (word ++ '"' :: quotedLine gap words) := by
      simp [quotedLine]
    have hdrop : (lead ++ '"' :: (word ++ '"' :: quotedLine gap words)).dropWhile isSpace =
        '"' :: (word ++ '"' :: quotedLine gap words) := by
      rw [List.dropWhile_append_of_pos hlead, List.dropWhile_cons_of_neg (by decide)]
    have hlength := congrArg List.length hnext
    rw [hline] at hfuel ⊢
    simp only [List.length_append, List.length_cons, List.length_drop] at hfuel hlength
    obtain ⟨fuel, rfl⟩ : ∃ more, fuel = more + 1 := ⟨fuel - 1, by omega⟩
    rw [lineWords, hdrop]
    simp only [Char.reduceEq, if_false]
    rw [scanArgValue_quoted (h.plain _ List.mem_cons_self) hhead, hnext]
    exact congrArg _ (ih h.tail hnextBlank (by omega))

theorem configWords_cons {lines : List (List Char)} (h : line.length < 256) :
    configWords (line :: lines) = lineWords line.length line ++ configWords lines := if_pos h

/-- In a file, between lines that fit the buffer. -/
theorem configWords_quotedLine {before after : List (List Char)} (h : Quotable words)
    (hlead : ∀ c ∈ lead, isSpace c = true) (hfits : (quotedLine lead words).length < 256)
    (hbefore : ∀ line ∈ before, line.length < 256) :
    configWords (before ++ quotedLine lead words :: after) =
      configWords before ++ (words.map fun word => .ofList word.1) ++ configWords after := by
  induction before with
  | nil =>
    rw [List.nil_append, configWords_cons hfits, lineWords_quotedLine h hlead le_rfl]
    rfl
  | cons line before ih =>
    obtain ⟨hline, hrest⟩ := List.forall_mem_cons.mp hbefore
    rw [List.cons_append, configWords_cons hline, ih hrest, configWords_cons hline]
    simp only [List.append_assoc]

/-- Quoted words in a line of a configuration file are given back as they are, whatever stands in
the lines around them, and a file with fewer than 4096 words has just these words partitioned. -/
theorem quoted_words_read (h : Quotable words) (hlead : ∀ c ∈ lead, isSpace c = true)
    (hfits : (quotedLine lead words).length < 256) :
    lineWords (quotedLine lead words).length (quotedLine lead words) =
      (words.map fun word => .ofList word.1) ∧
    (∀ before after : List (List Char), (∀ line ∈ before, line.length < 256) →
      configWords (before ++ quotedLine lead words :: after) =
        configWords before ++ (words.map fun word => .ofList word.1) ++ configWords after) ∧
    ∀ (env : Environment) depth file name p,
      env.configFile p.cfgFilenameStack file = some (name, [quotedLine lead words]) →
      words.length < 4096 →
      parseConfigFile env (depth + 1) file p =
        (partitionFrom env (parseConfigFile env depth) 0
          { p with cfgFilenameStack := name :: p.cfgFilenameStack }
          (words.map fun word => .ofList word.1)).map
            fun p => { p with cfgFilenameStack := p.cfgFilenameStack.drop 1 } := by
  refine ⟨lineWords_quotedLine h hlead le_rfl,
    fun before after => configWords_quotedLine h hlead hfits, ?_⟩
  intro env depth file name p hfile hcount
  have hwords : configWords [quotedLine lead words] = words.map fun word => .ofList word.1 := by
    rw [configWords_cons hfits, lineWords_quotedLine h hlead le_rfl, configWords,
      List.append_nil]
  rw [parseConfigFile, hfile]
  simp only [hwords, List.length_map, hcount, if_true]
  cases partitionFrom env (parseConfigFile env depth) 0
    { p with cfgFilenameStack := name :: p.cfgFilenameStack }
    (words.map fun word => .ofList word.1) <;> rfl

/-- A word with a blank, an empty one and one that looks like a comment. -/
theorem quoted_words_read_three :
    configWords ["-x".toList, " \"a b\" \"\"\t\"#c\"".toList] = ["-x", "a b", "", "#c"] := by
  have hquotable : Quotable [("a b".toList, [' ']), ([], ['\t']), ("#c".toList, [])] :=
    ⟨by simp, by simp [isSpace], by simp⟩
  have hread := (@quoted_words_read _ [' '] hquotable (by simp [isSpace]) (by decide +kernel)).2.1
    ["-x".toList] [] (by decide +kernel)
  exact hread.trans (by decide +kernel)

end Awb.Classic
