import Awb.Builder.Paths
import Mathlib.Data.List.ProdSigma

/-! The score of a module by the attributes of a model. Both criteria go into one number, in which
a later first match counts for more. -/

namespace Awb.ModuleTree

/-- The name of an attribute, without the mark of a mandatory or conflicting one. -/
def attributeName : Text → Text
  | '+' :: name => name
  | '-' :: name => name
  | fullname => fullname

/-- The variables of `is_default_module`. -/
structure Score where
  matchCount : ℕ := 0
  attrNumber : ℕ := 0
  firstAttrNumber : ℕ := 0

/-- One attribute of the module. -/
def Score.compare (aName : Text) (s : Score) (aa : Text) : Score :=
  if aName = attributeName aa then
    { s with
      firstAttrNumber := if s.firstAttrNumber = 0 then s.attrNumber else s.firstAttrNumber
      matchCount := s.matchCount + 1 }
  else s

/-- One attribute of the model. -/
def Score.next (moduleAttr : List Text) (s : Score) (a : Text) : Score :=
  moduleAttr.foldl (Score.compare (attributeName a)) { s with attrNumber := s.attrNumber + 1 }

def Score.score (s : Score) : ℕ := s.matchCount * 1000 + s.firstAttrNumber

def isDefaultModule (modelAttr moduleAttr : List Text) : ℕ :=
  (modelAttr.foldl (Score.next moduleAttr) {}).score

/-! ### The documented order -/

/-- The number of pairs of an attribute of the model and one of the module with the same name. -/
def matchingAttributes (modelAttr moduleAttr : List Text) : ℕ :=
  (modelAttr ×ˢ moduleAttr).countP fun p => attributeName p.1 = attributeName p.2

/-- The number of the model's first attribute that the module has, counted from one, or zero. -/
def firstMatch (modelAttr moduleAttr : List Text) : ℕ :=
  match modelAttr.findIdx? fun a => moduleAttr.any fun aa => attributeName a = attributeName aa with
  | some i => i + 1
  | none => 0

/-- The first module has more matching attributes, or as many and the first of them further left. -/
def Better (modelAttr better worse : List Text) : Prop :=
  matchingAttributes modelAttr worse < matchingAttributes modelAttr better ∨
    matchingAttributes modelAttr worse = matchingAttributes modelAttr better ∧
      firstMatch modelAttr better < firstMatch modelAttr worse

/-- The scores of two modules are as documented. -/
structure ScoredInOrder (modelAttr m m' : List Text) : Prop where
  left : Better modelAttr m m' → isDefaultModule modelAttr m' < isDefaultModule modelAttr m
  right : Better modelAttr m' m → isDefaultModule modelAttr m < isDefaultModule modelAttr m'
  zero : ∀ mod ∈ [m, m'], isDefaultModule modelAttr mod = 0 ↔ matchingAttributes modelAttr mod = 0

/-! ### What is scored -/

variable {modelAttr moduleAttr m m' : List Text} {s : Score} {a : Text}

theorem foldl_compare {aName : Text} :
    moduleAttr.foldl (Score.compare aName) s =
      { s with
        firstAttrNumber :=
          if s.firstAttrNumber = 0 ∧ ∃ aa ∈ moduleAttr, aName = attributeName aa then s.attrNumber
          else s.firstAttrNumber
        matchCount := s.matchCount + moduleAttr.countP fun aa => aName = attributeName aa } := by
  induction moduleAttr generalizing s with
  | nil => simp
  | cons aa moduleAttr ih =>
    rw [List.foldl_cons, ih, Score.compare, List.countP_cons]
    by_cases h : aName = attributeName aa
    · rw [if_pos h]
      by_cases hfirst : s.firstAttrNumber = 0
      · simp [h, hfirst, Nat.add_comm 1, Nat.add_assoc]
      · simp [h, hfirst, Nat.add_comm 1, Nat.add_assoc]
    · rw [if_neg h]
      simp [h]

theorem matchingAttributes_cons (a : Text) :
    matchingAttributes (a :: modelAttr) moduleAttr =
      moduleAttr.countP (fun aa => attributeName a = attributeName aa) +
        matchingAttributes modelAttr moduleAttr := by
  rw [matchingAttributes, List.product_cons, List.countP_append, List.countP_map]
  rfl

theorem firstMatch_cons (a : Text) :
    firstMatch (a :: modelAttr) moduleAttr =
      if ∃ aa ∈ moduleAttr, attributeName a = attributeName aa then 1
      else if firstMatch modelAttr moduleAttr = 0 then 0
      else firstMatch modelAttr moduleAttr + 1 := by
  rw [firstMatch, firstMatch, List.findIdx?_cons]
  by_cases h : ∃ aa ∈ moduleAttr, attributeName a = attributeName aa
  · rw [if_pos h, if_pos (by simpa using h)]
  · rw [if_neg h, if_neg (by simpa using h)]
    cases modelAttr.findIdx? _ with
    | none => rfl
    | some i => simp

/-- The loop over the attributes of the model: the first match keeps its number. -/
theorem foldl_next :
    modelAttr.foldl (Score.next moduleAttr) s =
      { matchCount := s.matchCount + matchingAttributes modelAttr moduleAttr
        attrNumber := s.attrNumber + modelAttr.length
        firstAttrNumber :=
          if s.firstAttrNumber ≠ 0 then s.firstAttrNumber
          else if firstMatch modelAttr moduleAttr = 0 then 0
          else s.attrNumber + firstMatch modelAttr moduleAttr } := by
  induction modelAttr generalizing s with
  | nil =>
    obtain ⟨count, number, first⟩ := s
    by_cases h : first = 0 <;> simp [matchingAttributes, firstMatch, h]
  | cons a modelAttr ih =>
    rw [List.foldl_cons, ih, Score.next, foldl_compare, matchingAttributes_cons, firstMatch_cons]
    by_cases hfirst : s.firstAttrNumber = 0
    · by_cases h : ∃ aa ∈ moduleAttr, attributeName a = attributeName aa
      · simp [hfirst, h, Nat.add_assoc, Nat.add_comm 1]
      · by_cases hlater : firstMatch modelAttr moduleAttr = 0 <;>
          simp [hfirst, h, hlater, Nat.add_assoc, Nat.add_comm 1]
    · simp [hfirst, Nat.add_assoc, Nat.add_comm 1]

/-- The score packs both criteria. -/
theorem isDefaultModule_eq (modelAttr moduleAttr : List Text) :
    isDefaultModule modelAttr moduleAttr =
      matchingAttributes modelAttr moduleAttr * 1000 + firstMatch modelAttr moduleAttr := by
  rw [isDefaultModule, foldl_next, Score.score]
  by_cases h : firstMatch modelAttr moduleAttr = 0 <;> simp [h]

theorem firstMatch_eq_zero_iff :
    firstMatch modelAttr moduleAttr = 0 ↔ matchingAttributes modelAttr moduleAttr = 0 := by
  induction modelAttr with
  | nil => simp [firstMatch, matchingAttributes]
  | cons a modelAttr ih =>
    rw [firstMatch_cons, matchingAttributes_cons, Nat.add_eq_zero_iff, ← ih]
    by_cases h : ∃ aa ∈ moduleAttr, attributeName a = attributeName aa
    · simp [h]
    · simpa [h] using fun _ aa haa heq => h ⟨aa, haa, heq⟩

theorem isDefaultModule_eq_zero_iff :
    isDefaultModule modelAttr moduleAttr = 0 ↔ matchingAttributes modelAttr moduleAttr = 0 := by
  rw [isDefaultModule_eq, Nat.add_eq_zero_iff, firstMatch_eq_zero_iff]
  omega

/-- Two modules are scored in the documented order exactly if those with equally many matches begin
to match at the same attribute, and otherwise the one with fewer matches does not begin so far to
the right that a thousand for each match do not make up for it. -/
theorem scoredInOrder_iff (modelAttr m m' : List Text) :
    ScoredInOrder modelAttr m m' ↔
      (matchingAttributes modelAttr m = matchingAttributes modelAttr m' →
        firstMatch modelAttr m = firstMatch modelAttr m') ∧
      (matchingAttributes modelAttr m' < matchingAttributes modelAttr m →
        firstMatch modelAttr m' < firstMatch modelAttr m +
          1000 * (matchingAttributes modelAttr m - matchingAttributes modelAttr m')) ∧
      (matchingAttributes modelAttr m < matchingAttributes modelAttr m' →
        firstMatch modelAttr m < firstMatch modelAttr m' +
          1000 * (matchingAttributes modelAttr m' - matchingAttributes modelAttr m)) := by
  constructor
  · -- A score is a thousand for each match and the index of the first one.
    rintro ⟨hleft, hright, -⟩
    rw [isDefaultModule_eq, isDefaultModule_eq] at hleft hright
    refine ⟨fun heq => ?_, fun hlt => ?_, fun hlt => ?_⟩
    · -- the one that begins further left would have to have the higher score
      rcases Nat.lt_trichotomy (firstMatch modelAttr m) (firstMatch modelAttr m') with h | h | h
      · have := hleft (.inr ⟨heq.symm, h⟩)
        omega
      · exact h
      · have := hright (.inr ⟨heq, h⟩)
        omega
    · have := hleft (.inl hlt)
      omega
    · have := hright (.inl hlt)
      omega
  · rintro ⟨heq, hleft, hright⟩
    refine ⟨fun h => ?_, fun h => ?_, fun mod _ => isDefaultModule_eq_zero_iff⟩
    · rw [isDefaultModule_eq, isDefaultModule_eq]
      rcases h with hlt | ⟨hcount, hfirst⟩
      · have := hleft hlt
        omega
      · have := heq hcount.symm
        omega
    · rw [isDefaultModule_eq, isDefaultModule_eq]
      rcases h with hlt | ⟨hcount, hfirst⟩
      · have := hright hlt
        omega
      · have := heq hcount
        omega

/-- Of two modules with one attribute each, the one with the second attribute is preferred. -/
theorem not_scoredInOrder :
    ¬ ScoredInOrder ["fast".toList, "small".toList] ["fast".toList] ["small".toList] := by
  intro h
  have hscore := h.left (.inr (by decide))
  revert hscore
  decide

end Awb.ModuleTree
