import Awb.Builder.Paths
import Awb.Lib.Matching

/-! The regular expressions that `Asim::UnionDir` makes of the names of directories and files. -/

namespace Awb.SearchPath

/-- The characters that stand for themselves in a regular expression. -/
def isPlainChar (c : Char) : Bool :=
  c ∉ ['\\', '^', '$', '.', '|', '?', '*', '+', '(', ')', '[', '{']

/-- A text that as a regular expression matches only itself. -/
def Plain (name : Text) : Prop := name.all isPlainChar = true

/-- What Perl does with a text between the fixed parts of a pattern; the text may be no regular
expression, and then it dies. -/
structure PerlRegex where
  /-- The `$1` of `/^$p\/(.*)/`, if it matches and sets it. -/
  behind : Text → Text → Except Text (Option Text)
  /-- `s/$p\///`. -/
  remove : Text → Text → Except Text Text
  /-- `/^$f$/`. -/
  whole : Text → Text → Except Text Bool
  behind_plain : ∀ p t, Plain p → behind p t = .ok
    (if (p ++ ['/']).isPrefixOf t then some ((t.drop (p.length + 1)).takeWhile (· ≠ '\n'))
    else none)
  remove_plain : ∀ p t, Plain p → remove p t = .ok
    ((Substitution.substituteFirst (p ++ ['/']) [] t).getD t)
  whole_plain : ∀ f t, Plain f → whole f t = .ok (t = f || t = f ++ ['\n'])

/-! ### Names with dots and plus signs -/

open Matching

/-- A character of a pattern; a dot matches all but the end of a line. -/
def patternItem (many : Bool) (c : Char) : Item Char :=
  if c = '.' then ⟨(· ≠ '\n'), many⟩ else ⟨(· = c), many⟩

/-- A text as a pattern in which only dots and plus signs have a meaning. -/
def patternItems : Text → List (Item Char)
  | [] => []
  | [c] => [patternItem false c]
  | c :: d :: cs =>
    if d = '+' then patternItem true c :: patternItems cs
    else patternItem false c :: patternItems (d :: cs)

theorem patternItem_plain {c : Char} (h : isPlainChar c = true) :
    patternItem false c = exactly c := by
  have hdot : c ≠ '.' := by
    rintro rfl
    cases h
  rw [patternItem, if_neg hdot, exactly]

theorem patternItems_plain {p : Text} (h : Plain p) : patternItems p = p.map exactly := by
  fun_induction patternItems p with
  | case1 => rfl
  | case2 c =>
    rw [patternItem_plain (List.all_eq_true.mp h c List.mem_cons_self), List.map_singleton]
  | case3 c cs _ => cases List.all_eq_true.mp h '+' (List.mem_cons_of_mem c List.mem_cons_self)
  | case4 c d cs _ ih =>
    rw [Plain, List.all_cons, Bool.and_eq_true] at h
    obtain ⟨hc, hrest⟩ := h
    rw [patternItem_plain hc, ih hrest, List.map_cons, List.map_cons, List.map_cons]

/-- The regular expressions of names in which only dots and plus signs have a meaning. -/
def dotPlusRegex : PerlRegex where
  behind p t := .ok ((rests (patternItems p ++ [exactly '/']) t).head?.map
    (·.takeWhile (· ≠ '\n')))
  remove p t := .ok (removeFirst (patternItems p ++ [exactly '/']) t)
  whole f t := .ok ((rests (patternItems f) t).any fun rest => rest = [] || rest = ['\n'])
  behind_plain p t h := by
    have hitems : patternItems p ++ [exactly '/'] = (p ++ ['/']).map exactly := by
      rw [patternItems_plain h, List.map_append, List.map_singleton]
    rw [hitems, rests_literal]
    split
    · rw [List.head?_cons, Option.map_some, List.length_append, List.length_singleton]
    · rfl
  remove_plain p t h := by
    rw [patternItems_plain h, ← List.map_singleton, ← List.map_append,
      removeFirst_literal (by simp)]
  whole_plain f t h := by
    rw [patternItems_plain h, rests_literal]
    by_cases hstart : f <+: t
    · obtain ⟨rest, rfl⟩ := hstart
      simp
    · have hne : t ≠ f := fun heq => hstart (heq ▸ List.prefix_rfl)
      have hnewline : t ≠ f ++ ['\n'] := fun heq => hstart (heq ▸ List.prefix_append f _)
      simp [hstart, hne, hnewline]

/-! ### Matches anywhere in a text -/

/-- A pattern in which only dots have a meaning. -/
def Dotted (pattern : Text) : Prop :=
  pattern ≠ [] ∧ ∀ c ∈ pattern, isPlainChar c = true ∨ c = '.'

/-- The match of such a pattern anywhere in a text. -/
def occurs (pattern text : Text) : Bool :=
  text.tails.any fun rest => !(rests (pattern.map (patternItem false)) rest).isEmpty

/-- What Perl makes of a text as a pattern. If it is none, the program dies. -/
structure Patterns where
  compile : Text → Option (Text → Bool)
  compile_dotted : ∀ pattern, Dotted pattern → compile pattern = some (occurs pattern)

/-- The patterns with dots and nothing else that has a meaning. -/
def dottedPatterns : Patterns where
  compile pattern := some (occurs pattern)
  compile_dotted _ _ := rfl

theorem rests_dotted {pattern : Text} (h : ∀ c ∈ pattern, isPlainChar c = true ∨ c = '.')
    (text : Text) : text ∈ rests (pattern.map (patternItem false)) (pattern ++ text) := by
  induction pattern with
  | nil => exact List.mem_singleton_self text
  | cons c pattern ih =>
    have hrests : (patternItem false c).rests (c :: (pattern ++ text)) = [pattern ++ text] := by
      by_cases hdot : c = '.'
      · subst hdot
        rfl
      · simp [patternItem, Item.rests, hdot]
    rw [List.map_cons, List.cons_append, rests, hrests, List.flatMap_singleton]
    exact ih fun d hd => h d (List.mem_cons_of_mem c hd)

theorem occurs_of_infix {pattern : Text}
    (h : ∀ c ∈ pattern, isPlainChar c = true ∨ c = '.') (hinside : pattern <:+: text) :
    occurs pattern text = true := by
  obtain ⟨front, back, rfl⟩ := hinside
  rw [List.append_assoc]
  refine List.any_eq_true.mpr ⟨pattern ++ back, ?_, ?_⟩
  · exact (List.mem_tails _ _).mpr (List.suffix_append front (pattern ++ back))
  · have hne := List.ne_nil_of_mem (rests_dotted h back)
    rwa [Bool.not_eq_true', List.isEmpty_eq_false_iff]

end Awb.SearchPath
