import Awb.Batch.Scheduler
import Awb.Lib.Formulas
import Awb.Lib.Splitting
import Mathlib.Tactic

/-! `consolidate_smartclass_expressions` of the Netbatch module: the `-C` options of a string of
flags become one, whose expression is the conjunction of theirs. -/

namespace Awb.Batch.Netbatch
open Formulas

/-! ### The subroutine -/

/-- `-C\s+(\S+)`, at the start of a text: what it captures, and the text behind. -/
def matchClassAt : Text → Option (Text × Text)
  | '-' :: 'C' :: c :: text =>
    let rest := text.dropWhile isSpace
    let exp := rest.takeWhile (!isSpace ·)
    if isSpace c ∧ exp ≠ [] then some (exp, rest.dropWhile (!isSpace ·)) else none
  | _ => none

/-- The first place where the expression matches: the text before it, what it captures, and the
text behind. -/
def matchClass : Text → Option (Text × Text × Text)
  | [] => none
  | c :: text =>
    match matchClassAt (c :: text) with
    | some (exp, after) => some ([], exp, after)
    | none => (matchClass text).map fun (before, exp, after) => (c :: before, exp, after)

/-- `^\s*q(.*)q\s*$`, where the text has no blanks. -/
def stripQuotes (q : Char) (exp : Text) : Text :=
  if exp.head? = some q ∧ exp.getLast? = some q ∧ 2 ≤ exp.length then exp.tail.dropLast else exp

/-- The characters of `[\*\/\+\-|&><=!]`. -/
def isOperator (c : Char) : Bool := "*/+-|&><=!".toList.contains c

/-- In parentheses if necessary. -/
def enclose (exp : Text) : Text :=
  if exp.any isOperator ∧ ¬(exp.head? = some '(' ∧ exp.getLast? = some ')') then
    '(' :: (exp ++ [')'])
  else exp

/-- What is pushed for a captured text. -/
def classExpression (exp : Text) : Text := enclose (stripQuotes '\'' (stripQuotes '"' exp))

/-- The passes of the loop, each of which takes one option out of the flags. -/
def collectClasses : ℕ → Text → List Text → Text × List Text
  | 0, flags, exprs => (flags, exprs)
  | n + 1, flags, exprs =>
    match matchClass flags with
    | none => (flags, exprs)
    | some (before, exp, after) =>
      collectClasses n (before ++ after) (exprs ++ [classExpression exp])

/-- An option has characters, so that the loop ends in as many passes as the flags have. -/
def consolidateSmartclassExpressions (flags : Text) : Text :=
  let (flags, exprs) := collectClasses flags.length flags []
  "-C \"".toList ++ ['&', '&'].intercalate exprs ++ "\" ".toList ++ flags

/-! ### The options of a string of flags -/

def flagWords (flags : Text) : List Text := (flags.splitOnP isSpace).filter (· ≠ [])

/-- What the `-C` options among the words carry, and the other words. -/
def readFlags : List Text → List Text × List Text
  | [] => ([], [])
  | [word] => ([], [word])
  | word :: exp :: words =>
    if word = ['-', 'C'] then (exp :: (readFlags words).1, (readFlags words).2)
    else ((readFlags (exp :: words)).1, word :: (readFlags (exp :: words)).2)

/-- No other word ends as an option begins, the last one apart. -/
def Clean : List Text → Prop
  | [] => True
  | [_] => True
  | word :: exp :: words =>
    if word = ['-', 'C'] then Clean words else ¬['-', 'C'] <:+ word ∧ Clean (exp :: words)

/-- A word spells a formula, in quotes or not. -/
def Spells (word : Text) (f : Formula .disj) : Prop :=
  '"' ∉ f.text ∧ '\'' ∉ f.text ∧
    (word = f.text ∨ word = '"' :: (f.text ++ ['"']) ∨ word = '\'' :: (f.text ++ ['\'']))

/-- The formulas of the `-C` options. -/
def Carries (flags : Text) (formulas : List (Formula .disj)) : Prop :=
  List.Forall₂ Spells (readFlags (flagWords flags)).1 formulas

/-- The other flags are left, and there is one `-C` option for all formulas, or none if there are no
formulas. -/
structure Consolidated (flags result : Text) (formulas : List (Formula .disj)) : Prop where
  others : (readFlags (flagWords result)).2 = (readFlags (flagWords flags)).2
  none : formulas = [] → (readFlags (flagWords result)).1 = []
  one : formulas ≠ [] → ∃ word f, (readFlags (flagWords result)).1 = [word] ∧ Spells word f ∧
    ∀ value, f.eval value = formulas.all (·.eval value)

/-- A disjunction between parentheses that do not belong together: it is taken for one in
parentheses. -/
def LooksGrouped : Formula .disj → Prop
  | .conj _ => False
  | .or f g => (Formula.or f g).text.head? = some '(' ∧ (Formula.or f g).text.getLast? = some ')'

/-! ### Words -/

variable {w text flags word exp : Text} {words : List Text} {b : Char}

theorem flagWords_append (w text : Text) (hb : isSpace b = true) :
    flagWords (w ++ b :: text) = flagWords w ++ flagWords text := by
  rw [flagWords, List.splitOnP_append_cons w text hb, List.filter_append]
  rfl

theorem flagWords_cons (text : Text) (hb : isSpace b = true) :
    flagWords (b :: text) = flagWords text :=
  flagWords_append [] text hb

theorem flagWords_word (hne : w ≠ []) (hw : ∀ c ∈ w, isSpace c = false) : flagWords w = [w] := by
  rw [flagWords, List.splitOnP_eq_singleton fun c hc => by simp [hw c hc]]
  exact List.filter_cons_of_pos (by simpa using hne)

theorem flagWords_dropWhile (text : Text) :
    flagWords (text.dropWhile isSpace) = flagWords text := by
  induction text with
  | nil => rfl
  | cons c text ih =>
    rw [List.dropWhile_cons]
    split
    next hc => rw [ih, flagWords_cons text hc]
    next => rfl

/-- The first word of a text that begins with one. -/
theorem flagWords_first {c : Char} (hc : isSpace c = false) (text : Text) :
    flagWords (c :: text) = (c :: text).takeWhile (!isSpace ·) ::
      flagWords ((c :: text).dropWhile (!isSpace ·)) := by
  have hne : (c :: text).takeWhile (!isSpace ·) ≠ [] := by
    rw [List.takeWhile_cons_of_pos (by simp [hc])]
    exact List.cons_ne_nil _ _
  have hw : ∀ d ∈ (c :: text).takeWhile (!isSpace ·), isSpace d = false := fun d hd => by
    simpa using List.mem_takeWhile_imp hd
  have htext := List.takeWhile_append_dropWhile (p := (!isSpace ·)) (l := c :: text)
  rcases hrest : (c :: text).dropWhile (!isSpace ·) with _ | ⟨b, rest⟩
  · rw [hrest, List.append_nil] at htext
    rw [htext] at hne hw ⊢
    exact flagWords_word hne hw
  · have hb : isSpace b = true := by
      have := List.head?_dropWhile_not (!isSpace ·) (c :: text)
      rw [hrest] at this
      simpa using this
    rw [hrest] at htext
    conv_lhs => rw [← htext]
    rw [flagWords_append _ _ hb, flagWords_word hne hw, flagWords_cons rest hb]
    rfl

theorem readFlags_cons (h : ¬['-', 'C'] <:+ word ∨ words = []) :
    readFlags (word :: words) = ((readFlags words).1, word :: (readFlags words).2) := by
  match words, h with
  | [], _ => rfl
  | exp :: words, h =>
    have hword : word ≠ ['-', 'C'] := by
      rintro rfl
      simp at h
    rw [readFlags, if_neg hword]

theorem clean_cons (h : ¬['-', 'C'] <:+ word ∨ words = []) :
    Clean (word :: words) ↔ Clean words := by
  match words, h with
  | [], _ => exact Iff.rfl
  | exp :: words, h =>
    have hsuffix : ¬['-', 'C'] <:+ word := by simpa using h
    have hword : word ≠ ['-', 'C'] := by
      rintro rfl
      exact hsuffix (List.suffix_refl _)
    rw [Clean, if_neg hword]
    exact and_iff_right hsuffix

/-- A word that is no option, and what it ends as. -/
theorem Clean.suffix (h : Clean (word :: words)) (hword : word ≠ ['-', 'C'] ∨ words = []) :
    ¬['-', 'C'] <:+ word ∨ words = [] := by
  match words with
  | [] => exact Or.inr rfl
  | exp :: words =>
    rw [Clean, if_neg (by simpa using hword)] at h
    exact Or.inl h.1

/-! ### One pass -/

/-- A word that does not end as an option begins, or has none behind it, is passed over. -/
theorem matchClassAt_word {c : Char} (hw : ∀ d ∈ c :: w, isSpace d = false)
    (hb : isSpace b = true) (h : ¬['-', 'C'] <:+ c :: w ∨ flagWords text = []) :
    matchClassAt (c :: w ++ b :: text) = none := by
  unfold matchClassAt
  split
  next d rest htext =>
    have hexp : isSpace d = true →
        (rest.dropWhile isSpace).takeWhile (!isSpace ·) = [] := by
      intro hd
      match w, htext with
      | [], htext =>
        obtain ⟨-, htext⟩ := List.cons.inj htext
        rw [(List.cons.inj htext).1] at hb
        cases hb
      | [_], htext =>
        simp only [List.cons_append, List.nil_append, List.cons.injEq] at htext
        obtain ⟨rfl, rfl, rfl, rfl⟩ := htext
        have hnil := h.resolve_left (not_not_intro (List.suffix_refl _))
        rw [← flagWords_dropWhile] at hnil
        match hrest : text.dropWhile isSpace with
        | [] => rfl
        | e :: rest =>
          have he := List.head?_dropWhile_not isSpace text
          rw [hrest] at he hnil
          rw [flagWords_first (by simpa using he)] at hnil
          cases hnil
      | _ :: e :: w, htext =>
        simp only [List.cons_append, List.cons.injEq] at htext
        obtain ⟨rfl, rfl, rfl, rfl⟩ := htext
        have he := hw e (by simp)
        rw [hd] at he
        cases he
    rw [if_neg]
    rintro ⟨hd, hne⟩
    exact hne (hexp hd)
  next => rfl

theorem matchClass_append (hw : ∀ d ∈ w, isSpace d = false) (hb : isSpace b = true)
    (h : ¬['-', 'C'] <:+ w ∨ flagWords text = []) :
    matchClass (w ++ b :: text) =
      (matchClass text).map fun (before, exp, after) => (w ++ b :: before, exp, after) := by
  induction w with
  | nil =>
    have hnone : matchClassAt (b :: text) = none := by
      unfold matchClassAt
      split
      next heq =>
        rw [(List.cons.inj heq).1] at hb
        cases hb
      next => rfl
    rw [List.nil_append, matchClass, hnone]
    rfl
  | cons c w ih =>
    have hnone := matchClassAt_word hw hb h
    have hrest := ih (fun d hd => hw d (List.mem_cons_of_mem c hd))
      (h.imp_left fun hsuffix hw => hsuffix (hw.trans (List.suffix_cons c w)))
    rw [List.cons_append] at hnone
    rw [List.cons_append, matchClass, hnone]
    simp only [hrest, Option.map_map]
    rfl

theorem matchClass_word (hw : ∀ d ∈ w, isSpace d = false) : matchClass w = none := by
  induction w with
  | nil => rfl
  | cons c w ih =>
    have hnone : matchClassAt (c :: w) = none := by
      unfold matchClassAt
      split
      next d rest heq =>
        have hd : isSpace d = false := hw d (by simp [heq])
        rw [if_neg fun h => by simp [hd] at h]
      next => rfl
    rw [matchClass, hnone, ih fun d hd => hw d (List.mem_cons_of_mem c hd)]
    rfl

/-- An option at the start. -/
theorem matchClass_option (hb : isSpace b = true) (hne : flagWords text ≠ []) :
    ∃ exp after, matchClass ('-' :: 'C' :: b :: text) = some ([], exp, after) ∧
      flagWords text = exp :: flagWords after ∧ after.length ≤ text.length := by
  have hwords := flagWords_dropWhile text
  match hrest : text.dropWhile isSpace with
  | [] =>
    rw [hrest] at hwords
    exact absurd hwords.symm hne
  | c :: rest =>
    have hc : isSpace c = false := by
      have := List.head?_dropWhile_not isSpace text
      rw [hrest] at this
      simpa using this
    have hexp : (c :: rest).takeWhile (!isSpace ·) ≠ [] := by
      rw [List.takeWhile_cons_of_pos (by simp [hc])]
      exact List.cons_ne_nil _ _
    refine ⟨(c :: rest).takeWhile (!isSpace ·), (c :: rest).dropWhile (!isSpace ·), ?_, ?_, ?_⟩
    · simp only [matchClass, matchClassAt, hrest]
      rw [if_pos ⟨hb, hexp⟩]
    · rw [← hwords, hrest, flagWords_first hc]
    · have h₁ := (List.dropWhile_suffix (p := (!isSpace ·)) (l := c :: rest)).length_le
      have h₂ := (List.dropWhile_suffix (p := isSpace) (l := text)).length_le
      rw [hrest] at h₂
      exact h₁.trans h₂

/-- What a pass does, where the flags are clean: it takes the first option out. -/
theorem matchClass_spec (text : Text) (hclean : Clean (flagWords text)) :
    match matchClass text with
    | none => readFlags (flagWords text) = ([], flagWords text)
    | some (before, exp, after) => (before ++ after).length < text.length ∧
        Clean (flagWords (before ++ after)) ∧ readFlags (flagWords text) =
          (exp :: (readFlags (flagWords (before ++ after))).1,
            (readFlags (flagWords (before ++ after))).2) := by
  induction hn : text.length using Nat.strong_induction_on generalizing text with
  | _ n ih =>
  obtain hw | ⟨w, b, rest, rfl, hw, hb⟩ := Splitting.clean_or_first isSpace text
  · rw [matchClass_word hw]
    match text with
    | [] => rfl
    | c :: text =>
      rw [flagWords_word (List.cons_ne_nil _ _) hw]
      rfl
  have hlt : rest.length < n := by
    rw [← hn, List.length_append, List.length_cons]
    omega
  by_cases hoption : w = ['-', 'C'] ∧ flagWords rest ≠ []
  · obtain ⟨rfl, hne⟩ := hoption
    obtain ⟨exp, after, hmatch, hwords, hle⟩ := matchClass_option hb hne
    have htext : flagWords (['-', 'C'] ++ b :: rest) = ['-', 'C'] :: exp :: flagWords after := by
      rw [flagWords_append _ _ hb, flagWords_word (by simp) hw, hwords]
      rfl
    rw [htext] at hclean ⊢
    rw [show ['-', 'C'] ++ b :: rest = '-' :: 'C' :: b :: rest from rfl, hmatch]
    exact ⟨by rw [List.nil_append]; omega, hclean, rfl⟩
  · have hsuffix : ¬['-', 'C'] <:+ w ∨ flagWords rest = [] := by
      by_cases hnil : w = []
      · exact Or.inl (by simp [hnil])
      rw [flagWords_append _ _ hb, flagWords_word hnil hw] at hclean
      refine hclean.suffix ?_
      by_contra hboth
      exact hoption ⟨by tauto, by tauto⟩
    -- the words of a text behind this one are those of the text, behind this one
    have hread : ∀ text, (¬['-', 'C'] <:+ w ∨ flagWords text = []) →
        (Clean (flagWords (w ++ b :: text)) ↔ Clean (flagWords text)) ∧
        readFlags (flagWords (w ++ b :: text)) = ((readFlags (flagWords text)).1,
          flagWords w ++ (readFlags (flagWords text)).2) := by
      intro text h
      rw [flagWords_append _ _ hb]
      by_cases hnil : w = []
      · subst hnil
        exact ⟨Iff.rfl, rfl⟩
      rw [flagWords_word hnil hw]
      exact ⟨clean_cons h, readFlags_cons h⟩
    have hrest := ih rest.length hlt rest ((hread rest hsuffix).1.mp hclean) rfl
    rw [matchClass_append hw hb hsuffix, (hread rest hsuffix).2]
    match hmatch : matchClass rest with
    | none =>
      rw [hmatch] at hrest
      simp only at hrest
      simp only [Option.map_none, hrest, flagWords_append _ _ hb]
    | some (before, exp, after) =>
      rw [hmatch] at hrest
      obtain ⟨hlength, hclean', hrest⟩ := hrest
      have hends : ¬['-', 'C'] <:+ w ∨ flagWords (before ++ after) = [] := by
        refine Or.inl (hsuffix.resolve_right fun hnil => ?_)
        rw [hnil] at hrest
        cases hrest
      obtain ⟨hclean'', hread'⟩ := hread (before ++ after) hends
      simp only [Option.map_some, List.append_assoc, List.cons_append]
      refine ⟨?_, hclean''.mpr hclean', ?_⟩
      · rw [← hn, List.length_append, List.length_append, List.length_cons, List.length_cons]
        omega
      · rw [hread', hrest]

/-- The whole loop. -/
theorem collectClasses_spec (n : ℕ) (flags : Text) (exprs : List Text)
    (hclean : Clean (flagWords flags)) (hn : flags.length ≤ n) :
    ∃ rest, collectClasses n flags exprs =
        (rest, exprs ++ (readFlags (flagWords flags)).1.map classExpression) ∧
      readFlags (flagWords rest) = ([], (readFlags (flagWords flags)).2) := by
  induction n generalizing flags exprs with
  | zero =>
    obtain rfl := List.length_eq_zero_iff.mp (Nat.le_zero.mp hn)
    exact ⟨[], by simp [collectClasses, flagWords, readFlags], rfl⟩
  | succ n ih =>
    have hpass := matchClass_spec flags hclean
    rw [collectClasses]
    match hmatch : matchClass flags with
    | none =>
      rw [hmatch] at hpass
      simp only at hpass
      exact ⟨flags, by simp [hpass], by rw [hpass]⟩
    | some (before, exp, after) =>
      rw [hmatch] at hpass
      obtain ⟨hlength, hclean', hread⟩ := hpass
      obtain ⟨rest, hcollect, hrest⟩ :=
        ih (before ++ after) (exprs ++ [classExpression exp]) hclean' (by omega)
      refine ⟨rest, ?_, ?_⟩
      · simp only [hread, hcollect, List.map_cons, List.append_assoc, List.singleton_append]
      · rw [hread, hrest]

/-! ### Expressions -/

variable {f : Formula .disj} {formulas : List (Formula .disj)}

theorem stripQuotes_of_notMem {q : Char} (h : q ∉ text) : stripQuotes q text = text :=
  if_neg fun hq => h (List.mem_of_mem_head? hq.1)

theorem stripQuotes_quoted (q : Char) (text : Text) :
    stripQuotes q (q :: (text ++ [q])) = text := by
  have hlast : (q :: (text ++ [q])).getLast? = some q := by
    rw [← List.cons_append, List.getLast?_concat]
  rw [stripQuotes, if_pos ⟨rfl, hlast, by simp⟩, List.tail_cons, List.dropLast_concat]

theorem Spells.strip (h : Spells word f) :
    stripQuotes '\'' (stripQuotes '"' word) = f.text := by
  obtain ⟨hdouble, hsingle, rfl | rfl | rfl⟩ := h
  · rw [stripQuotes_of_notMem hdouble, stripQuotes_of_notMem hsingle]
  · rw [stripQuotes_quoted, stripQuotes_of_notMem hsingle]
  · have hnot : '"' ∉ '\'' :: (f.text ++ ['\'']) := by simp [hdouble]
    rw [stripQuotes_of_notMem hnot, stripQuotes_quoted]

/-- A formula is pushed as it is, or in parentheses. -/
theorem Spells.classExpression (h : Spells word f) :
    classExpression word = f.text ∨ classExpression word = (Formula.group f).text := by
  rw [Netbatch.classExpression, h.strip, enclose]
  split
  next => exact Or.inr rfl
  next => exact Or.inl rfl

theorem mem_text_or (f : Formula .conj) (g : Formula .disj) : '|' ∈ (Formula.or f g).text := by
  simp [Formula.text]

/-- What is pushed is a formula that a conjunction can be made of. -/
theorem Spells.conj (h : Spells word f) (hgrouped : ¬LooksGrouped f) :
    ∃ g : Formula .conj, Netbatch.classExpression word = g.text ∧
      ∀ value, g.eval value = f.eval value := by
  obtain hword | hword := h.classExpression
  · match f, h, hgrouped, hword with
    | .conj g, _, _, hword => exact ⟨g, hword, fun _ => rfl⟩
    | .or g g', h, hgrouped, hword =>
      refine absurd ?_ hgrouped
      rw [Netbatch.classExpression, h.strip, enclose] at hword
      split at hword
      next =>
        have := congrArg List.length hword
        simp only [List.length_cons, List.length_append, List.length_nil] at this
        omega
      next hkept =>
        have hany : (Formula.or g g').text.any isOperator = true :=
          List.any_eq_true.mpr ⟨'|', mem_text_or g g', by decide⟩
        by_contra hno
        exact hkept ⟨hany, hno⟩
  · exact ⟨.unary (.group f), hword, fun _ => rfl⟩

/-- The formulas, one behind the other. -/
def conjoin (g : Formula .conj) : List (Formula .conj) → Formula .conj
  | [] => g
  | g' :: gs => g.andThen (conjoin g' gs)

theorem text_conjoin (g : Formula .conj) (gs : List (Formula .conj)) :
    (conjoin g gs).text = ['&', '&'].intercalate ((g :: gs).map Formula.text) := by
  induction gs generalizing g with
  | nil => simp [conjoin]
  | cons g' gs ih =>
    rw [conjoin, Formula.text_andThen, ih, List.map_cons, List.map_cons, List.map_cons,
      List.intercalate_cons_cons, List.append_assoc]

theorem eval_conjoin (value : Text → Bool) (g : Formula .conj) (gs : List (Formula .conj)) :
    (conjoin g gs).eval value = (g :: gs).all (·.eval value) := by
  induction gs generalizing g with
  | nil => simp [conjoin]
  | cons g' gs ih => rw [conjoin, Formula.eval_andThen, ih, List.all_cons (a := g)]

theorem conjunctions {words : List Text} (h : List.Forall₂ Spells words formulas)
    (hgrouped : ∀ f ∈ formulas, ¬LooksGrouped f) :
    ∃ gs : List (Formula .conj), words.map classExpression = gs.map Formula.text ∧
      ∀ value, gs.all (·.eval value) = formulas.all (·.eval value) := by
  induction h with
  | nil => exact ⟨[], rfl, fun _ => rfl⟩
  | cons hspells _ ih =>
    obtain ⟨gs, htexts, hevals⟩ := ih fun f hf => hgrouped f (List.mem_cons_of_mem _ hf)
    obtain ⟨g, htext, heval⟩ := hspells.conj (hgrouped _ List.mem_cons_self)
    refine ⟨g :: gs, ?_, fun value => ?_⟩
    · rw [List.map_cons, List.map_cons, htext, htexts]
    · rw [List.all_cons, List.all_cons, heval, hevals]

/-- The expression of the one option. -/
theorem exists_joined {words : List Text} (h : List.Forall₂ Spells words formulas)
    (hne : formulas ≠ [])
    (hgrouped : 1 < formulas.length → ∀ f ∈ formulas, ¬LooksGrouped f) :
    ∃ f : Formula .disj, ['&', '&'].intercalate (words.map classExpression) = f.text ∧
      ∀ value, f.eval value = formulas.all (·.eval value) := by
  obtain _ | ⟨hspells, hrest⟩ := h
  · exact absurd rfl hne
  rename_i word f words formulas
  obtain _ | ⟨hspells', hrest'⟩ := hrest
  · rw [List.map_singleton, List.intercalate_singleton]
    obtain hword | hword := hspells.classExpression
    · exact ⟨_, hword, fun _ => by simp⟩
    · exact ⟨.conj (.unary (.group f)), hword, fun _ => by simp [Formula.eval]⟩
  · have h := List.Forall₂.cons hspells (.cons hspells' hrest')
    obtain ⟨gs, htexts, hevals⟩ := conjunctions h (hgrouped (by simp))
    obtain _ | ⟨g, gs⟩ := gs
    · have := congrArg List.length htexts
      simp at this
    · refine ⟨.conj (conjoin g gs), ?_, fun value => ?_⟩
      · rw [htexts]
        exact (text_conjoin g gs).symm
      · rw [← hevals]
        exact eval_conjoin value g gs

/-! ### The whole subroutine -/

theorem mem_of_mem_readFlags (h : word ∈ (readFlags words).1) : word ∈ words := by
  fun_induction readFlags words with
  | case1 => exact h
  | case2 => cases h
  | case3 exp words ih =>
    obtain rfl | h := List.mem_cons.mp h
    · simp
    · exact List.mem_cons_of_mem _ (List.mem_cons_of_mem _ (ih h))
  | case4 word exp words hword ih => exact List.mem_cons_of_mem _ (ih h)

theorem isSpace_of_mem_option {c : Char} (hword : word ∈ (readFlags (flagWords flags)).1)
    (hc : c ∈ word) : isSpace c = false := by
  have hpart := (List.mem_filter.mp (mem_of_mem_readFlags hword)).1
  exact (Splitting.fullSplit_splitOnP isSpace flags).clean word hpart c hc

theorem Spells.mem {c : Char} (h : Spells word f) (hc : c ∈ f.text) : c ∈ word := by
  obtain ⟨-, -, rfl | rfl | rfl⟩ := h
  · exact hc
  · simp [hc]
  · simp [hc]

/-- A character that can stand in the quotes of an option. -/
def Quotable (c : Char) : Prop := isSpace c = false ∧ c ≠ '"' ∧ c ≠ '\''

theorem Spells.quotable (h : Spells word f) (hspace : ∀ c ∈ word, isSpace c = false) :
    ∀ c ∈ Netbatch.classExpression word, Quotable c := by
  have hf : ∀ c ∈ f.text, Quotable c := fun c hc =>
    ⟨hspace c (h.mem hc), fun hq => h.1 (hq ▸ hc), fun hq => h.2.1 (hq ▸ hc)⟩
  obtain hword | hword := h.classExpression
  · rwa [hword]
  · rw [hword, Formula.text]
    intro c hc
    simp only [List.mem_cons, List.mem_append, List.not_mem_nil, or_false] at hc
    rcases hc with rfl | hc | rfl
    · exact ⟨by decide, by decide, by decide⟩
    · exact hf c hc
    · exact ⟨by decide, by decide, by decide⟩

theorem exists_spelled {words : List Text} (h : List.Forall₂ Spells words formulas)
    (hword : word ∈ words) : ∃ f, Spells word f := by
  induction h with
  | nil => cases hword
  | cons hspells _ ih =>
    obtain rfl | hword := List.mem_cons.mp hword
    · exact ⟨_, hspells⟩
    · exact ih hword

theorem joined_quotable (h : Carries flags formulas) :
    ∀ c ∈ ['&', '&'].intercalate ((readFlags (flagWords flags)).1.map classExpression),
      Quotable c := by
  intro c hc
  rcases Splitting.mem_intercalate hc with hc | ⟨part, hpart, hc⟩
  · obtain rfl : c = '&' := by simpa using hc
    exact ⟨by decide, by decide, by decide⟩
  · obtain ⟨word, hword, rfl⟩ := List.mem_map.mp hpart
    obtain ⟨f, hf⟩ := exists_spelled h hword
    exact hf.quotable (fun d hd => isSpace_of_mem_option hword hd) c hc

theorem flagWords_mark : flagWords ['-', 'C'] = [['-', 'C']] := by decide

/-- The option at the start of the result. -/
theorem readFlags_result {joined : Text} (hspace : ∀ c ∈ joined, isSpace c = false)
    (rest : Text) :
    readFlags (flagWords ("-C \"".toList ++ joined ++ "\" ".toList ++ rest)) =
      (('"' :: (joined ++ ['"'])) :: (readFlags (flagWords rest)).1,
        (readFlags (flagWords rest)).2) := by
  have htext : "-C \"".toList ++ joined ++ "\" ".toList ++ rest =
      ['-', 'C'] ++ ' ' :: (('"' :: (joined ++ ['"'])) ++ ' ' :: rest) := by simp
  have hword : ∀ c ∈ '"' :: (joined ++ ['"']), isSpace c = false := by
    intro c hc
    simp only [List.mem_cons, List.mem_append, List.not_mem_nil, or_false] at hc
    rcases hc with rfl | hc | rfl
    · rfl
    · exact hspace c hc
    · rfl
  rw [htext, flagWords_append _ _ rfl, flagWords_append _ _ rfl,
    flagWords_word (by simp) hword, flagWords_mark]
  rfl

/-- Without an option there is one, too. With options there is one for all, if no other flag ends
as they begin and either there is only one option, or none is a disjunction that is taken for one in
parentheses. -/
theorem consolidate_consolidated (h : Carries flags formulas) :
    (formulas = [] →
      ¬Consolidated flags (consolidateSmartclassExpressions flags) formulas) ∧
    (formulas ≠ [] → Clean (flagWords flags) →
      (1 < formulas.length → ∀ f ∈ formulas, ¬LooksGrouped f) →
      Consolidated flags (consolidateSmartclassExpressions flags) formulas) := by
  constructor
  · rintro rfl hresult
    obtain ⟨rest, joined, hresult'⟩ : ∃ rest joined, consolidateSmartclassExpressions flags =
        ['-', 'C'] ++ ' ' :: '"' :: (joined ++ rest) :=
      ⟨_, _, by simp [consolidateSmartclassExpressions]; rfl⟩
    have hnone := hresult.none rfl
    rw [hresult', flagWords_append _ _ rfl, flagWords_mark, flagWords_first (by decide)] at hnone
    cases hnone
  · intro hne hclean hgrouped
    obtain ⟨rest, hcollect, hrest⟩ := collectClasses_spec flags.length flags [] hclean le_rfl
    have hquotable := joined_quotable h
    obtain ⟨f, htext, heval⟩ := exists_joined h hne hgrouped
    have hread := readFlags_result (fun c hc => (hquotable c hc).1) rest
    rw [hrest] at hread
    rw [List.nil_append] at hcollect
    have hresult : consolidateSmartclassExpressions flags = "-C \"".toList ++
        ['&', '&'].intercalate ((readFlags (flagWords flags)).1.map classExpression) ++
        "\" ".toList ++ rest := by
      rw [consolidateSmartclassExpressions, hcollect]
    refine ⟨by rw [hresult, hread], fun hnil => absurd hnil hne, fun _ => ?_⟩
    refine ⟨_, f, by rw [hresult, hread], ?_, heval⟩
    rw [htext] at hquotable ⊢
    exact ⟨fun hq => (hquotable _ hq).2.1 rfl, fun hq => (hquotable _ hq).2.2 rfl,
      Or.inr (Or.inl rfl)⟩

theorem consolidate_twoClasses : ∃ f g : Formula .disj, f.text = "a||b".toList ∧
    g.text = "c>4".toList ∧
    Consolidated "-C a||b -q x -C 'c>4'".toList
      (consolidateSmartclassExpressions "-C a||b -q x -C 'c>4'".toList) [f, g] := by
  refine ⟨.or (.unary (.atom ['a'] (by decide))) (.conj (.unary (.atom ['b'] (by decide)))),
    .conj (.unary (.atom ['c', '>', '4'] (by decide))), rfl, rfl, ?_⟩
  have hread : (readFlags (flagWords "-C a||b -q x -C 'c>4'".toList)).1 =
      ["a||b".toList, "'c>4'".toList] := by decide
  refine (consolidate_consolidated ?_).2 (List.cons_ne_nil _ _) ?_ ?_
  · rw [Carries, hread]
    refine .cons ⟨by decide, by decide, Or.inl rfl⟩ (.cons ⟨by decide, by decide, ?_⟩ .nil)
    exact Or.inr (Or.inr rfl)
  · have hwords : flagWords "-C a||b -q x -C 'c>4'".toList =
        ["-C".toList, "a||b".toList, "-q".toList, "x".toList, "-C".toList, "'c>4'".toList] := by
      decide
    rw [hwords]
    exact ⟨by decide, by decide, trivial⟩
  · intro _ f hf
    simp only [List.mem_cons, List.not_mem_nil, or_false] at hf
    rcases hf with rfl | rfl
    · exact fun h => absurd h.1 (by decide)
    · exact id

/-- With two options one of which is `(a)||(b)`, the class of the other is only asked for with
`b`. -/
theorem not_consolidated_grouped : ∃ flags formulas, Carries flags formulas ∧ formulas ≠ [] ∧
    Clean (flagWords flags) ∧
    ¬Consolidated flags (consolidateSmartclassExpressions flags) formulas := by
  let a : Formula .unary := .atom ['a'] (by decide)
  let b : Formula .unary := .group (.conj (.unary (.atom ['b'] (by decide))))
  let c : Formula .conj := .unary (.atom ['c'] (by decide))
  let ga : Formula .conj := .unary (.group (.conj (.unary a)))
  have hread : (readFlags (flagWords "-C (a)||(b) -C c".toList)).1 =
      ["(a)||(b)".toList, "c".toList] := by decide
  have hwords : flagWords "-C (a)||(b) -C c".toList =
      ["-C".toList, "(a)||(b)".toList, "-C".toList, "c".toList] := by decide
  refine ⟨"-C (a)||(b) -C c".toList, [.or ga (.conj (.unary b)), .conj c], ?_,
    List.cons_ne_nil _ _, ?_, fun h => ?_⟩
  · rw [Carries, hread]
    exact .cons ⟨by decide, by decide, Or.inl rfl⟩
      (.cons ⟨by decide, by decide, Or.inl rfl⟩ .nil)
  · rw [hwords]
    exact trivial
  · obtain ⟨word, f, hword, hspells, heval⟩ := h.one (List.cons_ne_nil _ _)
    have hresult : (readFlags (flagWords
        (consolidateSmartclassExpressions "-C (a)||(b) -C c".toList))).1 =
        ['"' :: ("(a)||(b)&&c".toList ++ ['"'])] := by decide
    rw [hresult] at hword
    obtain rfl := List.singleton_inj.mp hword
    have hf : f = .or ga (.conj (.and b c)) := by
      have htext : f.text = (Formula.or ga (.conj (.and b c))).text := by
        rw [← hspells.strip, stripQuotes_quoted]
        rfl
      have hparse := parse_text f
      rw [htext, parse_text] at hparse
      exact (Option.some.inj hparse).symm
    -- a machine of class `a` only
    have hvalue := heval (· == ['a'])
    rw [hf] at hvalue
    exact absurd hvalue (by decide)

end Awb.Batch.Netbatch
