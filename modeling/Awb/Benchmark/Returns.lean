import Awb.Benchmark.Parse

/-! `Benchmark::Parse` trusts that a line whose beginning is blank is as long as the indentation it
takes away. A shorter line of blanks is not. -/

namespace Awb
open Substitution

section Texts
variable {suffix str line : Text} {n : ℕ}

theorem stringRemoveCRLF_eq (str : Text) :
    stringRemoveCRLF str = some ((str.filter (· ≠ '\n')).filter (· ≠ '\r')) := by
  have hcount (c : Char) (text : Text) : text.count c < text.length + 1 :=
    Nat.lt_succ_of_le List.count_le_length
  exact Option.bind_eq_some_iff.mpr ⟨_, substituteAll_singleton_nil (hcount '\n' str),
    substituteAll_singleton_nil (hcount '\r' _)⟩

/-- The match of the regular expression is digits behind an underscore and a letter. -/
theorem percent_not_mem_regionSuffix (fileName : Text) :
    '%' ∉ Benchmark.regionSuffix fileName := by
  unfold Benchmark.regionSuffix
  split
  · intro h
    rcases List.mem_append.mp h with h | h
    · exact absurd h (by decide)
    · have hdigit : Char.isDigit '%' := List.mem_rtakeWhile_imp h
      exact absurd hdigit (by decide)
  · exact List.not_mem_nil

theorem Benchmark.exists_bufferLine (hsuffix : '%' ∉ suffix) (buffer : Text) :
    ∃ line, bufferLine suffix buffer = some line := by
  have hline := stringRemoveCRLF_eq (buffer.takeWhile (· ≠ '\x00'))
  have hmark : suffix.count '%' < "%R".toList.count '%' := by
    rw [List.count_eq_zero.mpr hsuffix]
    decide
  obtain ⟨out, hout⟩ := exists_substituteAll hmark (Nat.lt_succ_of_le List.count_le_length)
  exact ⟨out, Option.bind_eq_some_iff.mpr ⟨_, hline, hout⟩⟩

theorem Benchmark.exists_itemLine (hsuffix : '%' ∉ suffix) (buffer : Text) :
    ∃ line, itemLine suffix buffer = some line := by
  obtain ⟨line, hline⟩ := exists_bufferLine hsuffix buffer
  exact ⟨_, congrArg (Option.map _) hline⟩

theorem trimLeft_eq_nil_iff {trimChars : Text} :
    trimLeft trimChars str = [] ↔ ∀ c ∈ str, c ∈ trimChars := by
  rw [trimLeft, List.dropWhile_eq_nil_iff]
  simp

theorem stringTrim_eq_nil_iff : stringTrim str = [] ↔ ∀ c ∈ str, c ∈ blanks := by
  rw [stringTrim, List.reverse_eq_nil_iff, trimLeft_eq_nil_iff]
  constructor
  · intro h
    by_contra hne
    -- What is left on the left side begins with a character that is not a blank.
    have hleft := mt trimLeft_eq_nil_iff.mp hne
    have hhead := List.head_dropWhile_not (fun c => decide (c ∈ blanks)) hleft
    have hmem := h _ (List.mem_reverse.mpr (List.head_mem hleft))
    exact absurd hmem (of_decide_eq_false hhead)
  · intro h c hc
    exact h c ((List.dropWhile_suffix _).subset (List.mem_reverse.mp hc))

theorem trimRight_eq_nil (h : ∀ c ∈ str, c ∈ blanks) : trimRight blanks str = [] := by
  rw [trimRight, List.rdropWhile_eq_nil_iff]
  simpa using h

/-! ### Texts with one character between blanks -/

section OneCharacter
variable {before after : Text} {c : Char}

theorem trimRight_append_cons (hc : c ∉ blanks) (hafter : ∀ b ∈ after, b ∈ blanks) :
    trimRight blanks (before ++ c :: after) = before ++ [c] := by
  have hall : after.reverse.dropWhile (· ∈ blanks) = [] := by
    rw [List.dropWhile_eq_nil_iff]
    simpa using hafter
  rw [trimRight, List.rdropWhile, List.reverse_append, List.reverse_cons, List.append_assoc,
    List.dropWhile_append, hall, List.isEmpty_nil, if_pos rfl, List.singleton_append,
    List.dropWhile_cons_of_neg (by simpa using hc)]
  simp

theorem exists_of_trimRight (h : trimRight blanks str = [c]) :
    ∃ after, (∀ b ∈ after, b ∈ blanks) ∧ str = c :: after := by
  refine ⟨str.rtakeWhile (· ∈ blanks), fun b hb => ?_, ?_⟩
  · simpa using List.mem_rtakeWhile_imp hb
  · calc str
        = trimRight blanks str ++ str.rtakeWhile (· ∈ blanks) :=
          List.rdropWhile_append_rtakeWhile.symm
      _ = c :: str.rtakeWhile (· ∈ blanks) := by rw [h]; rfl

theorem stringTrim_eq_singleton_iff (hc : c ∉ blanks) :
    stringTrim str = [c] ↔ ∃ before after, (∀ b ∈ before, b ∈ blanks) ∧
      (∀ b ∈ after, b ∈ blanks) ∧ str = before ++ c :: after := by
  constructor
  · intro h
    obtain ⟨after, hafter, hleft⟩ := exists_of_trimRight h
    refine ⟨str.takeWhile (· ∈ blanks), after, fun b hb => ?_, hafter, ?_⟩
    · simpa using List.mem_takeWhile_imp hb
    · rw [← hleft]
      exact List.takeWhile_append_dropWhile.symm
  · rintro ⟨before, after, hbefore, hafter, rfl⟩
    have hleft : trimLeft blanks (before ++ c :: after) = c :: after := by
      rw [trimLeft, List.dropWhile_append_of_pos (by simpa using hbefore),
        List.dropWhile_cons_of_neg (by simpa using hc)]
    calc stringTrim (before ++ c :: after)
        = trimRight blanks (trimLeft blanks (before ++ c :: after)) := rfl
      _ = [c] := by rw [hleft]; exact @trimRight_append_cons [] _ _ hc hafter

end OneCharacter
end Texts

namespace Benchmark

/-! ### One line of the section -/

/-- The first line with nothing but a brace sets the indentation. -/
def braceLine (lines : List Text) : Option Text :=
  lines.find? fun line => stringTrim line = ['\x7b']

/-- The column of that brace. -/
def cmdsIndentAfter (lines : List Text) : ℕ := (braceLine lines).elim 0 (·.idxOf '\x7b')

/-- The indentation of the commands. -/
def indentAfter (lines : List Text) : ℕ := (braceLine lines).elim 0 (·.idxOf '\x7b' + 2)

/-- A line that ends the section, below lines that do not. -/
def Ends (lines : List Text) (line : Text) : Prop :=
  stringTrim line = ['\x7b', '\x7d'] ∨
    stringTrim line = ['\x7d'] ∧ line.idxOf '\x7d' ≤ cmdsIndentAfter lines

/-- A line of blanks only is empty or as long as the indentation. -/
def Fits (indent : ℕ) (line : Text) : Prop :=
  line ≠ [] → stringTrim line = [] → indent ≤ line.length

/-- The indentation that the loop has in hand is that of the lines before. -/
structure Follows (i : Indentation) (lines : List Text) : Prop where
  cmdsIndent : i.cmdsIndent = cmdsIndentAfter lines
  indent : i.indent = indentAfter lines
  indentSet : i.indentSet = (braceLine lines).isSome

section Line
variable {indent : ℕ} {origLine line : Text} {i : Indentation} {lines : List Text}

/-- Taking the indentation away throws exactly at the short lines of blanks. -/
theorem isSome_unindent_iff : (unindent indent origLine line).isSome ↔ Fits indent origLine := by
  unfold unindent substrFrom Fits
  by_cases hblank : origLine ≠ [] ∧ stringTrim (origLine.take indent) = []
  · rw [if_pos hblank]
    by_cases hle : indent ≤ origLine.length
    · simp [hle]
    · have hall : origLine.take indent = origLine := List.take_of_length_le (Nat.le_of_not_le hle)
      rw [hall] at hblank
      simp [hle, hblank]
  · rw [if_neg hblank]
    refine iff_of_true rfl fun hne htrim => absurd ⟨hne, ?_⟩ hblank
    rw [stringTrim_eq_nil_iff] at htrim ⊢
    exact fun c hc => htrim c (List.mem_of_mem_take hc)

/-- A brace closes the section if it stands no farther to the right than the opening one. -/
theorem closes_iff {myLine : Text} (h : unindent indent origLine origLine = some myLine) :
    trimRight blanks myLine = ['\x7d'] ↔
      stringTrim origLine = ['\x7d'] ∧ origLine.idxOf '\x7d' ≤ indent := by
  have hbrace : '\x7d' ∉ blanks := by decide
  have hidx : ∀ before after : Text, (∀ b ∈ before, b ∈ blanks) →
      (before ++ '\x7d' :: after).idxOf '\x7d' = before.length := by
    intro before after hbefore
    rw [List.idxOf_append_of_notMem fun hmem => hbrace (hbefore _ hmem), List.idxOf_cons_self,
      Nat.add_zero]
  unfold unindent at h
  by_cases hblank : origLine ≠ [] ∧ stringTrim (origLine.take indent) = []
  · rw [if_pos hblank, substrFrom] at h
    obtain ⟨hle, hdrop⟩ := Option.ite_none_right_eq_some.mp h
    obtain rfl := Option.some.inj hdrop
    have htake := stringTrim_eq_nil_iff.mp hblank.2
    rw [stringTrim_eq_singleton_iff hbrace]
    constructor
    · intro hright
      obtain ⟨after, hafter, hrest⟩ := exists_of_trimRight hright
      have hline : origLine = origLine.take indent ++ '\x7d' :: after := by
        rw [← hrest, List.take_append_drop]
      refine ⟨⟨origLine.take indent, after, htake, hafter, hline⟩, ?_⟩
      rw [hline, hidx _ _ htake]
      exact List.length_take_le ..
    · rintro ⟨⟨before, after, hbefore, hafter, rfl⟩, hcolumn⟩
      rw [hidx _ _ hbefore] at hcolumn
      -- The blanks that are taken away reach exactly up to the brace.
      have hlength : before.length = indent := by
        by_contra hne
        have hmem : '\x7d' ∈ (before ++ '\x7d' :: after).take indent := by
          rw [List.take_append, List.mem_append]
          obtain ⟨n, hn⟩ := Nat.exists_eq_succ_of_ne_zero
            (Nat.sub_ne_zero_of_lt (Nat.lt_of_le_of_ne hcolumn hne))
          exact .inr (by rw [hn]; exact List.mem_cons_self ..)
        exact hbrace (htake _ hmem)
      rw [← hlength, List.drop_left]
      exact @trimRight_append_cons [] _ _ hbrace hafter
  · rw [if_neg hblank] at h
    obtain rfl := Option.some.inj h
    refine (Iff.intro (fun htrim => ⟨htrim, ?_⟩) fun htrim => htrim.1)
    obtain ⟨before, after, hbefore, -, rfl⟩ := (stringTrim_eq_singleton_iff hbrace).mp htrim
    rw [hidx _ _ hbefore]
    by_contra hlt
    refine hblank ⟨by simp, stringTrim_eq_nil_iff.mpr fun c hc => hbefore c ?_⟩
    rw [List.take_append_of_le_length (Nat.le_of_not_le hlt)] at hc
    exact List.mem_of_mem_take hc

theorem Fits.mono {more : ℕ} (hle : indent ≤ more) (h : Fits more line) : Fits indent line :=
  fun hne htrim => hle.trans (h hne htrim)

theorem cmdsIndent_le (hi : Follows i lines) : i.cmdsIndent ≤ i.indent := by
  rw [hi.cmdsIndent, hi.indent, cmdsIndentAfter, indentAfter]
  cases braceLine lines <;> simp

theorem isSome_commandLine_iff (hi : Follows i lines) :
    (commandLine i origLine).isSome ↔ Fits (indentAfter lines) origLine := by
  rw [← hi.indent]
  have hle : i.cmdsIndent ≤ i.indent := cmdsIndent_le hi
  have hne {text : Text} (hline : stringTrim origLine = text) (htext : text ≠ []) :
      Fits i.indent origLine := fun _ htrim => absurd (hline.symm.trans htrim) htext
  unfold commandLine
  by_cases hempty : stringTrim origLine = ['\x7b', '\x7d']
  · rw [if_pos hempty]
    exact iff_of_true rfl (hne hempty (by decide))
  · rw [if_neg hempty]
    by_cases hbrace : i.indentSet = false ∧ stringTrim origLine = ['\x7b']
    · rw [if_pos hbrace]
      exact iff_of_true rfl (hne hbrace.2 (by decide))
    · rw [if_neg hbrace]
      cases hclose : unindent i.cmdsIndent origLine origLine with
      | none =>
        have hnot : ¬ Fits i.cmdsIndent origLine := by
          rw [← @isSome_unindent_iff _ _ origLine, hclose]
          exact Bool.false_ne_true
        exact iff_of_false Bool.false_ne_true fun h => hnot (h.mono hle)
      | some myLine =>
        rw [Option.bind_eq_bind, Option.bind_some]
        by_cases hend : trimRight blanks myLine = ['\x7d']
        · rw [if_pos hend]
          exact iff_of_true rfl (hne ((closes_iff hclose).mp hend).1 (by decide))
        · rw [if_neg hend, ← @isSome_unindent_iff _ _ (stringTrim origLine)]
          cases unindent i.indent origLine (stringTrim origLine) <;> rfl

theorem braceLine_concat : braceLine (lines ++ [origLine]) =
    (braceLine lines).or (if stringTrim origLine = ['\x7b'] then some origLine else none) := by
  rw [braceLine, List.find?_append, List.find?_singleton]
  simp [braceLine]

/-- What the loop does at a line is to end, to set the indentation or to keep it. -/
theorem commandLine_cases (hi : Follows i lines) {result : CommandLine}
    (h : commandLine i origLine = some result) :
    (result = .ends ∧ Ends lines origLine) ∨ ¬ Ends lines origLine ∧
      ((∃ i', result = .begins i' ∧ Follows i' (lines ++ [origLine])) ∨
        ∃ command, result = .command command ∧ Follows i (lines ++ [origLine])) := by
  unfold commandLine at h
  by_cases hempty : stringTrim origLine = ['\x7b', '\x7d']
  · rw [if_pos hempty] at h
    exact .inl ⟨(Option.some.inj h).symm, .inl hempty⟩
  · rw [if_neg hempty] at h
    by_cases hbrace : i.indentSet = false ∧ stringTrim origLine = ['\x7b']
    · rw [if_pos hbrace] at h
      refine .inr ⟨?_, .inl ⟨_, (Option.some.inj h).symm, ?_⟩⟩
      · rintro (hend | ⟨hend, -⟩)
        · exact hempty hend
        · exact absurd (hbrace.2.symm.trans hend) (by decide)
      · have hnone : braceLine lines = none := by
          rw [← Option.not_isSome_iff_eq_none, ← hi.indentSet, hbrace.1]
          exact Bool.false_ne_true
        have hline : braceLine (lines ++ [origLine]) = some origLine := by
          rw [braceLine_concat, hnone, if_pos hbrace.2, Option.none_or]
        have hidx : origLine.idxOf? '\x7b' = some (origLine.idxOf '\x7b') := by
          obtain ⟨before, after, -, -, rfl⟩ :=
            (stringTrim_eq_singleton_iff (by decide)).mp hbrace.2
          rw [List.idxOf_eq_getD_idxOf?]
          have hmem : ((before ++ '\x7b' :: after).idxOf? '\x7b').isSome := by simp
          obtain ⟨column, hcolumn⟩ := Option.isSome_iff_exists.mp hmem
          rw [hcolumn, Option.getD_some]
        constructor
        · rw [cmdsIndentAfter, hline, beginIndentation, hidx]
          rfl
        · rw [indentAfter, hline, beginIndentation, hidx]
          rfl
        · rw [hline, beginIndentation, hidx]
          rfl
    · rw [if_neg hbrace] at h
      obtain ⟨myLine, hclose, h⟩ := Option.bind_eq_some_iff.mp h
      have hcolumn := closes_iff hclose
      rw [hi.cmdsIndent] at hcolumn
      by_cases hend : trimRight blanks myLine = ['\x7d']
      · rw [if_pos hend] at h
        exact .inl ⟨(Option.some.inj h).symm, .inr (hcolumn.mp hend)⟩
      · rw [if_neg hend] at h
        obtain ⟨command, -, hcommand⟩ := Option.bind_eq_some_iff.mp h
        refine .inr ⟨?_, .inr ⟨_, (Option.some.inj hcommand).symm, ?_⟩⟩
        · rintro (hend' | hend')
          · exact hempty hend'
          · exact hend (hcolumn.mpr hend')
        · have hsame : braceLine (lines ++ [origLine]) = braceLine lines := by
            rw [braceLine_concat]
            cases hfound : braceLine lines with
            | some line => rfl
            | none =>
              rw [Option.none_or, if_neg]
              refine fun htrim => hbrace ⟨?_, htrim⟩
              rw [hi.indentSet, hfound]
              rfl
          exact ⟨by rw [cmdsIndentAfter, hsame]; exact hi.cmdsIndent,
            by rw [indentAfter, hsame]; exact hi.indent, by rw [hsame]; exact hi.indentSet⟩

end Line

/-! ### The section -/

/-- These are the lines in the buffers, and none of them ends the section. -/
structure ReadBefore (suffix : Text) (front lines : List Text) : Prop where
  areLines : front.map (origLine suffix) = lines.map some
  goesOn : ∀ before line after, lines = before ++ line :: after → ¬ Ends before line

/-- Below the buffers in front, every line that is reached can be read and fits the indentation set
before it. -/
def CommandsFit (suffix : Text) (front commands : List Text) : Prop :=
  ∀ more buffer rest lines, commands = more ++ buffer :: rest →
    ReadBefore suffix (front ++ more) lines →
      ∃ line, origLine suffix buffer = some line ∧ Fits (indentAfter lines) line

section Section
variable {suffix buffer line : Text} {i : Indentation} {front more rest lines : List Text}

theorem readBefore_nil : ReadBefore suffix [] [] where
  areLines := rfl
  goesOn := by simp

theorem ReadBefore.unique {lines' : List Text} (h : ReadBefore suffix front lines)
    (h' : ReadBefore suffix front lines') : lines = lines' :=
  List.map_injective_iff.mpr (Option.some_injective Text) (h.areLines.symm.trans h'.areLines)

theorem ReadBefore.concat (h : ReadBefore suffix front lines)
    (hline : origLine suffix buffer = some line) (hends : ¬ Ends lines line) :
    ReadBefore suffix (front ++ [buffer]) (lines ++ [line]) where
  areLines := by rw [List.map_append, List.map_append, h.areLines, List.map_singleton, hline]; rfl
  goesOn := by
    intro before line' after heq
    rcases List.eq_nil_or_concat after with rfl | ⟨after, last, rfl⟩
    · obtain ⟨rfl, hlast⟩ := List.append_inj' heq rfl
      rwa [← (List.cons.inj hlast).1]
    · rw [List.concat_eq_append, ← List.cons_append, ← List.append_assoc] at heq
      exact h.goesOn before line' after (List.append_inj' heq rfl).1

/-- Behind a line that was read, it is one of the lines, and does not end the section. -/
theorem ReadBefore.not_ends {lines' : List Text} (h : ReadBefore suffix front lines)
    (hline : origLine suffix buffer = some line)
    (h' : ReadBefore suffix (front ++ buffer :: more) lines') : ¬ Ends lines line := by
  have hmap := h'.areLines
  rw [List.map_append, h.areLines, List.map_cons, hline] at hmap
  obtain ⟨first, second, rfl, hfirst, hsecond⟩ := List.map_eq_append_iff.mp hmap.symm
  obtain rfl := List.map_injective_iff.mpr (Option.some_injective Text) hfirst
  obtain ⟨line', tail, rfl, hsome, -⟩ := List.map_eq_cons_iff.mp hsecond
  rw [← Option.some.inj hsome]
  exact h'.goesOn first line' tail rfl

theorem commandsFit_cons_iff (hread : ReadBefore suffix front lines) :
    CommandsFit suffix front (buffer :: rest) ↔ ∃ line, origLine suffix buffer = some line ∧
      Fits (indentAfter lines) line ∧
        (¬ Ends lines line → CommandsFit suffix (front ++ [buffer]) rest) := by
  constructor
  · intro h
    obtain ⟨line, hline, hfits⟩ := h [] buffer rest lines rfl (by rwa [List.append_nil])
    refine ⟨line, hline, hfits, fun _ more buffer' rest' lines' heq hread' => ?_⟩
    refine h (buffer :: more) buffer' rest' lines' (by rw [heq]; rfl) ?_
    rwa [List.append_assoc] at hread'
  · rintro ⟨line, hline, hfits, hnext⟩ more buffer' rest' lines' heq hread'
    rcases more with _ | ⟨first, more⟩
    · obtain ⟨rfl, -⟩ := List.cons.inj heq
      rw [List.append_nil] at hread'
      rw [← hread.unique hread']
      exact ⟨line, hline, hfits⟩
    · obtain ⟨rfl, rfl⟩ := List.cons.inj heq
      refine hnext (hread.not_ends hline hread') more buffer' rest' lines' rfl ?_
      rwa [List.append_assoc]

/-- The loop goes through if the lines that it still reads fit. -/
theorem isSome_readCommands_iff (hi : Follows i lines) (hread : ReadBefore suffix front lines)
    (b : Benchmark) (cfgBuf : Text) :
    (readCommands suffix i b cfgBuf rest).isSome ↔ CommandsFit suffix front rest := by
  induction rest generalizing i front lines b cfgBuf with
  | nil => exact iff_of_true rfl fun more buffer rest lines heq => by simp at heq
  | cons buffer rest ih =>
    rw [commandsFit_cons_iff hread, readCommands]
    cases hline : origLine suffix buffer with
    | none => exact iff_of_false Bool.false_ne_true fun ⟨_, h, _⟩ => Option.some_ne_none _ h.symm
    | some line =>
      rw [Option.bind_eq_bind, Option.bind_some]
      have hfits : (commandLine i line).isSome ↔ _ := isSome_commandLine_iff hi
      cases hresult : commandLine i line with
      | none =>
        rw [hresult] at hfits
        refine iff_of_false Bool.false_ne_true ?_
        rintro ⟨line', hsome, hfits', -⟩
        obtain rfl := Option.some.inj hsome
        exact Bool.false_ne_true (hfits.mpr hfits')
      | some result =>
        rw [hresult] at hfits
        have hone : (∃ line', some line = some line' ∧ Fits (indentAfter lines) line' ∧
            (¬ Ends lines line' → CommandsFit suffix (front ++ [buffer]) rest)) ↔
              (¬ Ends lines line → CommandsFit suffix (front ++ [buffer]) rest) := by
          constructor
          · rintro ⟨line', hsome, -, h⟩
            obtain rfl := Option.some.inj hsome
            exact h
          · exact fun h => ⟨line, rfl, hfits.mp rfl, h⟩
        rw [hone]
        rcases commandLine_cases hi hresult with ⟨rfl, hends⟩ |
          ⟨hends, ⟨i', rfl, hi'⟩ | ⟨command, rfl, hi'⟩⟩
        · exact iff_of_true rfl fun h => absurd hends h
        · rw [imp_iff_right hends]
          exact ih hi' (hread.concat hline hends) _ _
        · rw [imp_iff_right hends]
          exact ih hi' (hread.concat hline hends) _ _

end Section

/-! ### The items -/

/-- The lines in the buffers that count as items. -/
def itemLines (suffix : Text) (buffers : List Text) : List Text :=
  (buffers.filterMap (itemLine suffix)).filter fun line => ¬ isHeaderLine line

/-- What the file has below a number of items. -/
def commandBuffers (suffix : Text) : ℕ → List Text → List Text
  | 0, buffers => buffers
  | _ + 1, [] => []
  | n + 1, buffer :: rest =>
    if ∃ line ∈ itemLine suffix buffer, isHeaderLine line then commandBuffers suffix (n + 1) rest
    else commandBuffers suffix n rest

/-- The variables in the arguments of the setup script are substituted within the fuel. -/
def Substitutes (source : Source) (suffix : Text) (regionNumber : ℤ) (fuel : ℕ) (line : Text) :
    Prop :=
  (substituteVariables fuel source.benchmarkDir source.configDir
    (setupParts suffix regionNumber line).2).isSome

section Items
variable {source : Source} {suffix cfgBuf line : Text} {fuel itemNumber : ℕ} {b : Benchmark}
  {rest : List Text}

theorem isSome_setItem_iff : (setItem source suffix fuel itemNumber line b).isSome ↔
    (itemNumber = 4 → Substitutes source suffix b.regionNumber fuel line) := by
  unfold setItem
  split
  case h_5 =>
    rw [imp_iff_right rfl, Substitutes]
    obtain ⟨setupFile, args⟩ := setupParts suffix b.regionNumber line
    change (Option.bind _ _).isSome ↔ _
    cases substituteVariables fuel source.benchmarkDir source.configDir args <;> simp
  case h_9 => exact iff_of_true rfl fun h => absurd h (by assumption)
  all_goals exact iff_of_true rfl fun h => absurd h (by decide)

theorem regionNumber_of_setItem {b' : Benchmark}
    (h : setItem source suffix fuel itemNumber line b = some b') :
    b'.regionNumber = b.regionNumber := by
  unfold setItem at h
  split at h
  case h_5 =>
    obtain ⟨args, -, hargs⟩ := Option.bind_eq_some_iff.mp h
    rw [← Option.some.inj hargs]
  all_goals rw [← Option.some.inj h]

/-- The loop goes through if the substitution at the fifth item ends. -/
theorem isSome_readItems_iff (hsuffix : '%' ∉ suffix) :
    (readItems source suffix fuel itemNumber cfgBuf b rest).isSome ↔
      ∀ line, itemNumber ≤ 4 → (itemLines suffix rest)[4 - itemNumber]? = some line →
        Substitutes source suffix b.regionNumber fuel line := by
  induction rest generalizing itemNumber cfgBuf b with
  | nil => exact iff_of_true rfl fun line _ h => by simp [itemLines] at h
  | cons buffer rest ih =>
    rw [readItems]
    by_cases hmore : itemNumber < 8
    · obtain ⟨line, hline⟩ := exists_itemLine hsuffix buffer
      rw [if_pos hmore, hline, Option.bind_eq_bind, Option.bind_some]
      by_cases hheader : isHeaderLine line
      · have hsame : itemLines suffix (buffer :: rest) = itemLines suffix rest := by
          rw [itemLines, List.filterMap_cons_some hline, List.filter_cons_of_neg (by simpa)]
          rfl
        rw [if_pos hheader, hsame]
        exact ih
      · have hcons : itemLines suffix (buffer :: rest) = line :: itemLines suffix rest := by
          rw [itemLines, List.filterMap_cons_some hline, List.filter_cons_of_pos (by simpa)]
          rfl
        rw [if_neg hheader, hcons]
        have hset : (setItem source suffix fuel itemNumber line b).isSome ↔ _ := isSome_setItem_iff
        cases hitem : setItem source suffix fuel itemNumber line b with
        | none =>
          rw [hitem] at hset
          refine iff_of_false Bool.false_ne_true fun h => Bool.false_ne_true (hset.mpr ?_)
          rintro rfl
          exact h line le_rfl rfl
        | some b' =>
          rw [hitem] at hset
          rw [Option.bind_eq_bind, Option.bind_some, ih, regionNumber_of_setItem hitem]
          rcases Nat.lt_trichotomy itemNumber 4 with hlt | rfl | hgt
          · have hindex : 4 - itemNumber = (4 - (itemNumber + 1)) + 1 := by omega
            rw [hindex, List.getElem?_cons_succ]
            exact ⟨fun h l _ => h l hlt, fun h l _ => h l hlt.le⟩
          · refine iff_of_true (fun l hle => absurd hle (by decide)) fun l _ hl => ?_
            obtain rfl := Option.some.inj hl
            exact hset.mp rfl rfl
          · exact iff_of_true (fun l hle => absurd hle (by omega)) fun l hle =>
              absurd hle (by omega)
    · rw [if_neg hmore]
      exact iff_of_true rfl fun line hle => absurd hle (by omega)

/-- What the loop leaves of the file is what stands behind the items. -/
theorem rest_of_readItems (hsuffix : '%' ∉ suffix) (hle : itemNumber ≤ 8) {r : Reading}
    (h : readItems source suffix fuel itemNumber cfgBuf b rest = some r) :
    r.rest = commandBuffers suffix (8 - itemNumber) rest := by
  induction rest generalizing itemNumber cfgBuf b with
  | nil =>
    rw [readItems] at h
    rw [← Option.some.inj h]
    cases 8 - itemNumber <;> rfl
  | cons buffer rest ih =>
    rw [readItems] at h
    by_cases hmore : itemNumber < 8
    · obtain ⟨line, hline⟩ := exists_itemLine hsuffix buffer
      have hnumber : 8 - itemNumber = (8 - (itemNumber + 1)) + 1 := by omega
      rw [if_pos hmore, hline, Option.bind_eq_bind, Option.bind_some] at h
      rw [hnumber, commandBuffers, hline]
      by_cases hheader : isHeaderLine line
      · rw [if_pos hheader] at h
        rw [if_pos ⟨line, rfl, hheader⟩, ih hle h, hnumber]
      · rw [if_neg hheader] at h
        obtain ⟨b', -, h⟩ := Option.bind_eq_some_iff.mp h
        rw [if_neg, ih hmore h]
        rintro ⟨line', hsome, hheader'⟩
        exact hheader (Option.some.inj hsome ▸ hheader')
    · rw [if_neg hmore] at h
      obtain rfl : itemNumber = 8 := by omega
      rw [← Option.some.inj h]
      rfl

end Items

/-! ### The whole file -/

/-- A file that is read to its end. -/
structure Readable (source : Source) (suffix : Text) (file : Text) : Prop where
  arguments : ∀ line, (itemLines suffix (buffers 4096 file.length file))[4]? = some line →
    ∃ fuel, Substitutes source suffix (suffixNumber suffix) fuel line
  commands : CommandsFit suffix []
    (commandBuffers suffix 8 (buffers 4096 file.length file))

section Parse
variable {source : Source} {file : Text} {fuel : ℕ}

/-- Without a region suffix the arguments have no region number. -/
theorem substitutes_congr {suffix line : Text} {n n' : ℤ} (h : suffix ≠ [] → n = n') :
    Substitutes source suffix n fuel line ↔ Substitutes source suffix n' fuel line := by
  by_cases hsuffix : suffix = []
  · rw [Substitutes, Substitutes, setupParts, setupParts, if_pos hsuffix, if_pos hsuffix]
  · rw [h hsuffix]

theorem isSome_endRecognized (cfgBuf : Text) (rest : List Text) :
    ∃ recognized, endRecognized cfgBuf rest = some recognized := by
  rw [endRecognized, stringRemoveCRLF_eq]
  exact ⟨_, rfl⟩

theorem isSome_parseFile_iff {suffix : Text} (hsuffix : '%' ∉ suffix) (b : Benchmark) :
    (parseFile source suffix fuel file (b.selectRegion suffix)).isSome ↔
      (∀ line, (itemLines suffix (buffers 4096 file.length file))[4]? = some line →
        Substitutes source suffix (suffixNumber suffix) fuel line) ∧
      CommandsFit suffix [] (commandBuffers suffix 8 (buffers 4096 file.length file)) := by
  have hnumber : suffix ≠ [] → (b.selectRegion suffix).regionNumber = suffixNumber suffix := by
    intro hne
    rw [selectRegion, if_neg hne]
  have hitems : (readItems source suffix fuel 0 [] (b.selectRegion suffix)
      (buffers 4096 file.length file)).isSome ↔ _ := isSome_readItems_iff hsuffix
  simp only [substitutes_congr hnumber, Nat.zero_le, forall_const, Nat.sub_zero] at hitems
  rw [parseFile, Option.bind_eq_bind]
  cases hread : readItems source suffix fuel 0 [] (b.selectRegion suffix)
      (buffers 4096 file.length file) with
  | none =>
    rw [hread] at hitems
    exact iff_of_false Bool.false_ne_true fun h => Bool.false_ne_true (hitems.mpr h.1)
  | some items =>
    rw [hread] at hitems
    have hcommands : (readCommands suffix {} items.benchmark items.cfgBuf items.rest).isSome ↔
        CommandsFit suffix [] items.rest :=
      isSome_readCommands_iff ⟨rfl, rfl, rfl⟩ readBefore_nil _ _
    have hrest : items.rest = commandBuffers suffix 8 (buffers 4096 file.length file) :=
      rest_of_readItems hsuffix (Nat.zero_le 8) hread
    rw [and_iff_right (hitems.mp rfl), ← hrest, ← hcommands, Option.bind_some,
      Option.bind_eq_bind]
    cases hrun : readCommands suffix {} items.benchmark items.cfgBuf items.rest with
    | none => rfl
    | some result =>
      obtain ⟨b', cfgBuf, rest⟩ := result
      obtain ⟨recognized, hrecognized⟩ := isSome_endRecognized cfgBuf rest
      rw [Option.bind_some]
      refine iff_of_true ?_ rfl
      change (if items.itemNumber ≠ 8 then _ else _ : Option _).isSome
      split
      · rfl
      · change ((endRecognized cfgBuf rest).bind _).isSome
        rw [hrecognized]
        rfl

end Parse

/-- The parser returns exactly if the variables of the setup arguments are replaced at some time
and no line of blanks in the section of commands is shorter than the indentation. -/
theorem parse_returns_iff (source : Source) (file : Text) (b : Benchmark) :
    (∃ fuel, (parse source fuel file b).isSome) ↔
      Readable source (regionSuffix source.benchmarkFileName) file := by
  simp only [parse, isSome_parseFile_iff (percent_not_mem_regionSuffix _)]
  constructor
  · rintro ⟨fuel, harguments, hcommands⟩
    exact ⟨fun line hline => ⟨fuel, harguments line hline⟩, hcommands⟩
  · rintro ⟨harguments, hcommands⟩
    cases hitem : (itemLines (regionSuffix source.benchmarkFileName)
        (buffers 4096 file.length file))[4]? with
    | none => exact ⟨0, by simp, hcommands⟩
    | some line =>
      obtain ⟨fuel, hfuel⟩ := harguments line hitem
      refine ⟨fuel, fun line' hline => ?_, hcommands⟩
      rwa [← Option.some.inj hline]

/-- Eight items, and a section whose only command line is two blanks below an indented brace. -/
def shortLine : Text :=
  unlines (List.replicate 8 ['n'] ++
    ["    \x7b".toList, "  ".toList, "    \x7d".toList, "\x7d".toList])

theorem not_parse_shortLine :
    ¬ ∃ fuel, (parse ⟨"a.cfg".toList, "/b".toList, "/c".toList⟩ fuel shortLine {}).isSome := by
  rintro ⟨fuel, h⟩
  cases fuel with
  | zero => exact Bool.false_ne_true h
  | succ fuel => exact Bool.false_ne_true h

end Benchmark
end Awb
