import Awb.Builder.Actions
import Awb.Util.MatchString

/-! `SubstitutePlaceholders` replaces the first placeholder of each line of a makefile template. -/

namespace Awb
open Inifile.Cxx (cText)

def placeholderMark : Text := "$REPLACE$".toList

/-- A placeholder at the beginning of a text: its token, and what follows. -/
def placeholderAt (text : Text) : Option (Text × Text) :=
  let rest := text.drop placeholderMark.length
  if placeholderMark.isPrefixOf text ∧ rest.takeWhile isToken ≠ [] then
    some (rest.takeWhile isToken, rest.dropWhile isToken)
  else none

/-- The first match of `\$REPLACE\$([^[:space:]]+)`: what precedes it, the token, what follows. -/
def matchPlaceholder : Text → Option (Text × Text × Text)
  | [] => none
  | c :: text =>
    match placeholderAt (c :: text) with
    | some (token, after) => some ([], token, after)
    | none => (matchPlaceholder text).map fun m => (c :: m.1, m.2)

/-- The value set up for a token. -/
def replacement (replace : List (Text × Text)) (token : Text) : Text :=
  (replace.lookup token).getD ("undefined token ".toList ++ token)

def substituteLine (replace : List (Text × Text)) (line : Text) : Text :=
  match matchPlaceholder (cText line) with
  | none => line
  | some (before, token, after) =>
    before ++ replacement replace token ++ (after ++ unseen line)

/-- The makefile that is written for a template. -/
def substitutePlaceholders (replace : List (Text × Text)) (template : Text) : Text :=
  unlines ((getLines template).map (substituteLine replace))

/-- The template with every placeholder replaced. The number counts the characters of a placeholder
that are still to be skipped. -/
def replaceAllFrom (replace : List (Text × Text)) : ℕ → Text → Text
  | _, [] => []
  | skip + 1, _ :: text => replaceAllFrom replace skip text
  | 0, c :: text =>
    match placeholderAt (c :: text) with
    | some (token, _) =>
      replacement replace token ++
        replaceAllFrom replace (placeholderMark.length + token.length - 1) text
    | none => c :: replaceAllFrom replace 0 text

def replaceAll (replace : List (Text × Text)) (template : Text) : Text :=
  replaceAllFrom replace 0 template

/-- The part of a line behind its first placeholder, or all of it if there is none. -/
def behindFirst (line : Text) : Text :=
  match matchPlaceholder (cText line) with
  | none => line
  | some (_, _, after) => after ++ unseen line

/-- The part up to there, with the placeholder replaced. -/
def untilFirst (replace : List (Text × Text)) (line : Text) : Text :=
  match matchPlaceholder (cText line) with
  | none => []
  | some (before, token, _) => before ++ replacement replace token

section Scan
variable {replace : List (Text × Text)} {text after before token line : Text} {c : Char}

theorem placeholderAt_spec (h : placeholderAt text = some (token, after)) :
    text = placeholderMark ++ (token ++ after) ∧ token ≠ [] ∧ ∀ c ∈ token, isToken c = true := by
  unfold placeholderAt at h
  obtain ⟨⟨hmark, hne⟩, heq⟩ := Option.ite_none_right_eq_some.mp h
  obtain ⟨rfl, rfl⟩ := Prod.mk.inj (Option.some.inj heq)
  obtain ⟨rest, rfl⟩ := List.isPrefixOf_iff_prefix.mp hmark
  rw [List.drop_left] at hne ⊢
  exact ⟨by rw [List.takeWhile_append_dropWhile], hne, fun c hc => List.mem_takeWhile_imp hc⟩

theorem mark_prefix_append_iff (hmark : c ∉ placeholderMark) :
    placeholderMark <+: before ++ c :: text ↔ placeholderMark <+: before := by
  refine ⟨fun h => ?_, fun h => h.trans (List.prefix_append ..)⟩
  rcases List.prefix_or_prefix_of_prefix h (List.prefix_append before (c :: text)) with h' | h'
  · exact h'
  · obtain ⟨rest, hrest⟩ := h'
    rw [← hrest, List.prefix_append_right_inj] at h
    rcases rest with _ | ⟨a, rest⟩
    · rw [List.append_nil] at hrest
      exact hrest ▸ List.prefix_rfl
    · obtain ⟨tail, htail⟩ := h
      obtain rfl := (List.cons.inj htail).1
      exact absurd (hrest ▸ List.mem_append_right _ (List.mem_cons_self ..)) hmark

/-- A character that can be in no placeholder ends one. -/
theorem placeholderAt_append (hc : isToken c = false) (hmark : c ∉ placeholderMark) :
    placeholderAt (before ++ c :: text) =
      (placeholderAt before).map fun m => (m.1, m.2 ++ c :: text) := by
  unfold placeholderAt
  simp only [List.isPrefixOf_iff_prefix, mark_prefix_append_iff hmark]
  by_cases h : placeholderMark <+: before
  · obtain ⟨rest, rfl⟩ := h
    rw [List.append_assoc, List.drop_left, List.drop_left, takeWhile_append_stop hc,
      dropWhile_append_stop hc]
    split <;> rfl
  · simp [h]

/-- What cannot be in a placeholder stays where it is, and the parts before and behind it are
replaced each for itself. -/
theorem replaceAllFrom_append (hc : isToken c = false) (hmark : c ∉ placeholderMark) {skip : ℕ}
    (hskip : skip ≤ before.length) : replaceAllFrom replace skip (before ++ c :: text) =
      replaceAllFrom replace skip before ++ c :: replaceAll replace text := by
  induction before generalizing skip with
  | nil =>
    obtain rfl := Nat.le_zero.mp hskip
    have hnone : placeholderAt (c :: text) = none := @placeholderAt_append text [] c hc hmark
    rw [List.nil_append, replaceAllFrom, replaceAllFrom, hnone]
    rfl
  | cons a before ih =>
    cases skip with
    | succ skip => exact ih (Nat.le_of_succ_le_succ hskip)
    | zero =>
      have happend : placeholderAt (a :: before ++ c :: text) = _ := placeholderAt_append hc hmark
      rw [List.cons_append] at happend ⊢
      rw [replaceAllFrom, replaceAllFrom, happend]
      cases hfound : placeholderAt (a :: before) with
      | none => exact congrArg (a :: ·) (ih (Nat.zero_le _))
      | some m =>
        obtain ⟨token, after⟩ := m
        have hlength := congrArg List.length (placeholderAt_spec hfound).1
        simp only [List.length_cons, List.length_append] at hlength
        have hle : placeholderMark.length + token.length - 1 ≤ before.length := by omega
        rw [Option.map_some]
        dsimp only
        rw [ih hle, List.append_assoc]

/-- Skipping a placeholder leaves what follows it. -/
theorem replaceAllFrom_drop {skip : ℕ} (hskip : skip ≤ text.length) :
    replaceAllFrom replace skip text = replaceAll replace (text.drop skip) := by
  induction skip generalizing text with
  | zero => rfl
  | succ skip ih =>
    rcases text with _ | ⟨a, text⟩
    · cases hskip
    · exact ih (Nat.le_of_succ_le_succ hskip)

/-- Up to its first placeholder a text stays as it is. -/
theorem replaceAll_eq_self (h : matchPlaceholder text = none) : replaceAll replace text = text := by
  induction text with
  | nil => rfl
  | cons a text ih =>
    rw [matchPlaceholder] at h
    cases hfound : placeholderAt (a :: text) with
    | some m => rw [hfound] at h; cases h
    | none =>
      rw [hfound] at h
      rw [replaceAll, replaceAllFrom, hfound]
      exact congrArg (a :: ·) (ih (Option.map_eq_none_iff.mp h))

theorem replaceAll_placeholder (h : placeholderAt text = some (token, after)) :
    replaceAll replace text = replacement replace token ++ replaceAll replace after := by
  obtain ⟨htext, -, -⟩ := placeholderAt_spec h
  rcases text with _ | ⟨a, text⟩
  · cases h
  · have hlength := congrArg List.length htext
    simp only [List.length_cons, List.length_append] at hlength
    have hpos : 0 < placeholderMark.length := by decide
    have hskip : placeholderMark.length + token.length - 1 + 1 =
        (placeholderMark ++ token).length := by
      rw [List.length_append]
      omega
    have hdrop : text.drop (placeholderMark.length + token.length - 1) = after := by
      rw [← List.drop_succ_cons, hskip, htext, ← List.append_assoc, List.drop_left]
    rw [replaceAll, replaceAllFrom, h]
    dsimp only
    rw [replaceAllFrom_drop (by omega), hdrop]

/-- A match stands at the first placeholder. -/
theorem matchPlaceholder_spec (h : matchPlaceholder text = some (before, token, after)) :
    ∃ rest, text = before ++ rest ∧ placeholderAt rest = some (token, after) ∧
      replaceAll replace text = before ++ replaceAll replace rest := by
  induction text generalizing before with
  | nil => cases h
  | cons a text ih =>
    rw [matchPlaceholder] at h
    cases hfound : placeholderAt (a :: text) with
    | some m =>
      rw [hfound] at h
      obtain ⟨token', after'⟩ := m
      obtain ⟨rfl, rfl, rfl⟩ : [] = before ∧ token' = token ∧ after' = after := by simpa using h
      exact ⟨a :: text, rfl, hfound, rfl⟩
    | none =>
      rw [hfound] at h
      obtain ⟨⟨before', token', after'⟩, hrest, heq⟩ := Option.map_eq_some_iff.mp h
      obtain ⟨rfl, rfl, rfl⟩ : a :: before' = before ∧ token' = token ∧ after' = after := by
        simpa using heq
      obtain ⟨rest, htext, hat, hreplaced⟩ := ih hrest
      refine ⟨rest, congrArg (a :: ·) htext, hat, ?_⟩
      rw [replaceAll, replaceAllFrom, hfound]
      exact congrArg (a :: ·) hreplaced

theorem replaceAll_eq (h : matchPlaceholder text = some (before, token, after)) :
    replaceAll replace text = before ++ replacement replace token ++ replaceAll replace after ∧
      text = before ++ placeholderMark ++ token ++ after := by
  obtain ⟨rest, htext, hat, hreplaced⟩ := @matchPlaceholder_spec replace _ _ _ _ h
  refine ⟨?_, ?_⟩
  · rw [hreplaced, replaceAll_placeholder hat, List.append_assoc]
  · rw [htext, (placeholderAt_spec hat).1]
    simp

theorem token_of_matchPlaceholder (h : matchPlaceholder text = some (before, token, after)) :
    ∀ c ∈ token, isToken c = true := by
  obtain ⟨rest, -, hat, -⟩ := @matchPlaceholder_spec [] _ _ _ _ h
  exact (placeholderAt_spec hat).2.2

end Scan

/-! ### Lines -/

section Lines
variable {replace : List (Text × Text)} {line template : Text}

theorem substituteLine_eq :
    substituteLine replace line = untilFirst replace line ++ behindFirst line := by
  unfold substituteLine untilFirst behindFirst
  split <;> rfl

theorem replaceAll_line :
    replaceAll replace line = untilFirst replace line ++ replaceAll replace (behindFirst line) := by
  unfold untilFirst behindFirst
  cases hmatch : matchPlaceholder (cText line) with
  | none => rfl
  | some m =>
    obtain ⟨before, token, after⟩ := m
    have hseen := (@replaceAll_eq replace _ _ _ _ hmatch).1
    have hline := cText_append_unseen line
    dsimp only
    rcases unseen_eq_nil_or line with hnil | ⟨rest, hrest⟩
    · rw [hnil, List.append_nil] at hline ⊢
      rw [← hseen, hline]
    · -- The null character ends every placeholder that the library sees.
      have hnull (text : Text) : replaceAll replace (text ++ '\x00' :: rest) =
          replaceAll replace text ++ '\x00' :: replaceAll replace rest :=
        replaceAllFrom_append (by decide) (by decide) (Nat.zero_le _)
      rw [hrest] at hline ⊢
      rw [hnull, ← List.append_assoc, ← hseen, ← hnull, hline]

theorem newline_not_mem_behindFirst (h : '\n' ∉ line) : '\n' ∉ behindFirst line := by
  unfold behindFirst
  cases hmatch : matchPlaceholder (cText line) with
  | none => exact h
  | some m =>
    obtain ⟨before, token, after⟩ := m
    have hseen := (@replaceAll_eq [] _ _ _ _ hmatch).2
    intro hmem
    apply h
    rw [← cText_append_unseen line, hseen, List.append_assoc]
    exact List.mem_append_right _ hmem

theorem replaceAll_unlines (lines : List Text) :
    replaceAll replace (unlines lines) = unlines (lines.map (replaceAll replace)) := by
  induction lines with
  | nil => rfl
  | cons line lines ih =>
    have hline : replaceAll replace (line ++ '\n' :: unlines lines) =
        replaceAll replace line ++ '\n' :: replaceAll replace (unlines lines) :=
      replaceAllFrom_append (by decide) (by decide) (Nat.zero_le _)
    rw [unlines, List.flatMap_cons, List.append_assoc, List.map_cons, unlines, List.flatMap_cons,
      List.append_assoc]
    exact hline.trans (congrArg (replaceAll replace line ++ '\n' :: ·) ih)

theorem count_unlines (lines : List Text) :
    (unlines lines).count '\n' = (lines.map fun line => line.count '\n' + 1).sum := by
  rw [unlines, List.count_flatMap]
  congr 2
  funext line
  simp

/-- Two ways to end each line make the same text only if they are the same, when one of them brings
no newlines: then the other brings none either. -/
theorem eq_of_unlines {front rest rest' : Text → Text} {lines : List Text}
    (hrest : ∀ line ∈ lines, '\n' ∉ rest line)
    (h : unlines (lines.map fun line => front line ++ rest line) =
      unlines (lines.map fun line => front line ++ rest' line)) :
    ∀ line ∈ lines, rest line = rest' line := by
  have hrest' : ∀ line ∈ lines, '\n' ∉ rest' line := by
    have hcount := congrArg (List.count '\n') h
    simp only [count_unlines, List.map_map, Function.comp_def, List.count_append,
      List.sum_map_add] at hcount
    have hzero : (lines.map fun line => (rest line).count '\n').sum = 0 :=
      List.sum_eq_zero_iff.mpr fun n hn => by
        obtain ⟨line, hline, rfl⟩ := List.mem_map.mp hn
        exact List.count_eq_zero.mpr (hrest line hline)
    have hzero' : (lines.map fun line => (rest' line).count '\n').sum = 0 := by omega
    intro line hline
    exact List.count_eq_zero.mp (List.sum_eq_zero_iff.mp hzero' _ (List.mem_map_of_mem hline))
  induction lines with
  | nil => simp
  | cons line lines ih =>
    obtain ⟨hline, hlines⟩ := List.forall_mem_cons.mp hrest
    obtain ⟨hline', hlines'⟩ := List.forall_mem_cons.mp hrest'
    simp only [List.map_cons, unlines, List.flatMap_cons, List.append_assoc] at h
    have htail := List.append_cancel_left h
    simp only [List.singleton_append] at htail
    have hfirst : rest line = rest' line := by
      have htake := congrArg (List.takeWhile (· ≠ '\n')) htail
      rw [takeWhile_append_stop (by decide), takeWhile_append_stop (by decide),
        List.takeWhile_eq_self_iff.mpr, List.takeWhile_eq_self_iff.mpr] at htake
      · exact htake
      · exact fun c hc => decide_eq_true fun heq => hline' (heq ▸ hc)
      · exact fun c hc => decide_eq_true fun heq => hline (heq ▸ hc)
    rw [hfirst] at htail
    exact List.forall_mem_cons.mpr ⟨hfirst,
      ih hlines (List.cons.inj (List.append_cancel_left htail)).2 hlines'⟩

/-- With a newline at its end, the template is right if nothing is left to replace behind the first
placeholder of a line. -/
theorem substitutePlaceholders_eq_iff (hend : Terminated template) :
    substitutePlaceholders replace template = replaceAll replace template ↔
      ∀ line ∈ getLines template, replaceAll replace (behindFirst line) = behindFirst line := by
  have htemplate : unlines (getLines template) = template := by
    rw [unlines_getLines, if_pos hend]
  have hreplaced : replaceAll replace template =
      unlines ((getLines template).map fun line =>
        untilFirst replace line ++ replaceAll replace (behindFirst line)) := by
    conv_lhs => rw [← htemplate]
    rw [replaceAll_unlines]
    exact congrArg unlines (List.map_congr_left fun line _ => replaceAll_line)
  have hwritten : substitutePlaceholders replace template =
      unlines ((getLines template).map fun line =>
        untilFirst replace line ++ behindFirst line) :=
    congrArg unlines (List.map_congr_left fun line _ => substituteLine_eq)
  rw [hreplaced, hwritten]
  constructor
  · intro h line hline
    refine (eq_of_unlines (fun line hline => ?_) h line hline).symm
    exact newline_not_mem_behindFirst (newline_not_mem_getLines hline)
  · intro h
    refine congrArg unlines (List.map_congr_left fun line hline => ?_)
    rw [h line hline]

/-! ### Templates that are right whatever the values are -/

/-- Without values every placeholder grows, and no line breaks. -/
theorem replaceAll_nil {n : ℕ} {text : Text} (hn : text.length ≤ n) :
    text.length ≤ (replaceAll [] text).length ∧
      (matchPlaceholder text ≠ none → text.length < (replaceAll [] text).length) ∧
      ('\n' ∉ text → '\n' ∉ replaceAll [] text) := by
  induction n generalizing text with
  | zero =>
    obtain rfl := List.eq_nil_of_length_eq_zero (Nat.le_zero.mp hn)
    exact ⟨le_rfl, fun h => absurd rfl h, fun h => h⟩
  | succ n ih =>
    cases hmatch : matchPlaceholder text with
    | none =>
      rw [replaceAll_eq_self hmatch]
      exact ⟨le_rfl, fun h => absurd rfl h, fun h => h⟩
    | some m =>
      obtain ⟨before, token, after⟩ := m
      obtain ⟨hreplaced, htext⟩ := @replaceAll_eq [] _ _ _ _ hmatch
      have htoken := token_of_matchPlaceholder hmatch
      have hlength := congrArg List.length htext
      have hmark : placeholderMark.length = 9 := rfl
      simp only [List.length_append, hmark] at hlength
      obtain ⟨hle, -, hline⟩ := @ih after (by omega)
      have hlong : (replaceAll [] text).length =
          before.length + (16 + token.length) + (replaceAll [] after).length := by
        rw [hreplaced, List.length_append, List.length_append, replacement, List.lookup_nil,
          Option.getD_none, List.length_append]
        rfl
      refine ⟨by omega, fun _ => by omega, fun hnewline => ?_⟩
      rw [htext] at hnewline
      simp only [List.mem_append, not_or] at hnewline
      rw [hreplaced, replacement, List.lookup_nil, Option.getD_none]
      simp only [List.mem_append, not_or]
      exact ⟨⟨hnewline.1.1.1, by decide, hnewline.1.2⟩, hline hnewline.2⟩

theorem count_unlines_of_not_mem {f : Text → Text} {lines : List Text}
    (h : ∀ line ∈ lines, '\n' ∉ f line) : (unlines (lines.map f)).count '\n' = lines.length := by
  have hone : (lines.map f).map (fun line => line.count '\n' + 1) = lines.map fun _ => 1 := by
    rw [List.map_map]
    refine List.map_congr_left fun line hline => ?_
    simp [List.count_eq_zero.mpr (h line hline)]
  rw [count_unlines, hone, List.map_const', List.sum_replicate]
  simp

/-- The newline that a template lacks is written. -/
theorem terminated_of_eq (h : substitutePlaceholders [] template = replaceAll [] template) :
    Terminated template := by
  by_contra hnot
  have htemplate : unlines (getLines template) = template ++ ['\n'] := by
    rw [unlines_getLines, if_neg hnot]
  have hreplaced : unlines ((getLines template).map (replaceAll [])) =
      replaceAll [] template ++ ['\n'] := by
    rw [← replaceAll_unlines, htemplate]
    exact replaceAllFrom_append (by decide) (by decide) (Nat.zero_le _)
  have hline : ∀ line ∈ getLines template, '\n' ∉ replaceAll [] line := fun line hline =>
    (replaceAll_nil le_rfl).2.2 (newline_not_mem_getLines hline)
  have hwritten : ∀ line ∈ getLines template, '\n' ∉ substituteLine [] line := by
    intro line hmem
    have hall := hline line hmem
    rw [replaceAll_line, List.mem_append, not_or] at hall
    rw [substituteLine_eq, List.mem_append, not_or]
    exact ⟨hall.1, newline_not_mem_behindFirst (newline_not_mem_getLines hmem)⟩
  have hcount := congrArg (List.count '\n') hreplaced
  rw [← h, List.count_append, substitutePlaceholders, count_unlines_of_not_mem hline,
    count_unlines_of_not_mem hwritten, List.count_singleton_self] at hcount
  omega

/-- Every placeholder of a template is replaced, whatever its value is, exactly if the template ends
with a newline and no line has a second placeholder. With given values a second one may stay if
nothing would change there. -/
theorem placeholders_replaced_iff (template : Text) (replace : List (Text × Text)) :
    ((∀ replace, substitutePlaceholders replace template = replaceAll replace template) ↔
      Terminated template ∧
        ∀ line ∈ getLines template, matchPlaceholder (behindFirst line) = none) ∧
    (Terminated template →
      (substitutePlaceholders replace template = replaceAll replace template ↔
        ∀ line ∈ getLines template, replaceAll replace (behindFirst line) = behindFirst line)) := by
  refine ⟨⟨fun h => ?_, fun ⟨hend, hone⟩ replace => ?_⟩, substitutePlaceholders_eq_iff⟩
  · have hend : Terminated template := terminated_of_eq (h [])
    refine ⟨hend, fun line hline => ?_⟩
    by_contra hsecond
    have hsame := (substitutePlaceholders_eq_iff hend).mp (h []) line hline
    have hlong := (@replaceAll_nil _ (behindFirst line) le_rfl).2.1 hsecond
    rw [hsame] at hlong
    exact absurd hlong (lt_irrefl _)
  · refine (substitutePlaceholders_eq_iff hend).mpr fun line hline => ?_
    exact replaceAll_eq_self (hone line hline)

theorem placeholders_replaced_target :
    substitutePlaceholders [(['A'], ['x'])] "all: $REPLACE$A\n\t$REPLACE$B\n".toList =
      replaceAll [(['A'], ['x'])] "all: $REPLACE$A\n\t$REPLACE$B\n".toList :=
  ((placeholders_replaced_iff "all: $REPLACE$A\n\t$REPLACE$B\n".toList
    [(['A'], ['x'])]).2 (by decide)).mpr (by decide)

/-- The second target of a line keeps its placeholder. -/
theorem placeholders_left :
    substitutePlaceholders [(['A'], ['x']), (['B'], ['y'])] "$REPLACE$A $REPLACE$B\n".toList ≠
      replaceAll [(['A'], ['x']), (['B'], ['y'])] "$REPLACE$A $REPLACE$B\n".toList := by
  decide

end Lines
end Awb
