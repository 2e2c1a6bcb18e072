import Awb.Lib.Substitution

/-! Patterns of items that match one element each, some of them also several in a row. A match at
the beginning of a list is what it leaves, and the matches are in the order in which a matcher that
goes back tries them. -/

namespace Matching
variable {α : Type*}

structure Item (α : Type*) where
  accepts : α → Bool
  many : Bool

/-- The item that matches one element only. -/
def exactly [DecidableEq α] (a : α) : Item α := ⟨(· = a), false⟩

namespace Item

/-- What an item leaves, as many elements as it can match first. -/
def rests (item : Item α) : List α → List (List α)
  | [] => []
  | a :: l =>
    if item.accepts a then if item.many then item.rests l ++ [l] else [l] else []

end Item

def rests : List (Item α) → List α → List (List α)
  | [], l => [l]
  | item :: items, l => (item.rests l).flatMap (rests items)

/-- The first match is taken out. -/
def removeFirst (items : List (Item α)) : List α → List α
  | [] => (rests items []).headD []
  | a :: l => (rests items (a :: l)).headD (a :: removeFirst items l)

theorem rests_append (items items' : List (Item α)) (l : List α) :
    rests (items ++ items') l = (rests items l).flatMap (rests items') := by
  induction items generalizing l with
  | nil => rw [List.nil_append, rests, List.flatMap_singleton]
  | cons item items ih =>
    rw [List.cons_append, rests, rests, List.flatMap_assoc]
    exact List.flatMap_congr fun l _ => ih l

variable [DecidableEq α] {literal : List α}

/-- A pattern without repetition matches its own text. -/
theorem rests_literal (literal l : List α) :
    rests (literal.map exactly) l =
      if literal.isPrefixOf l then [l.drop literal.length] else [] := by
  induction literal generalizing l with
  | nil => rw [List.map_nil, rests, List.isPrefixOf, if_pos rfl, List.length_nil, List.drop_zero]
  | cons a literal ih =>
    cases l with
    | nil => rfl
    | cons b l =>
      have hitem : (exactly a).rests (b :: l) = if b = a then [l] else [] := by
        simp [Item.rests, exactly]
      rw [List.map_cons, rests, hitem, List.isPrefixOf]
      by_cases hab : b = a
      · rw [if_pos hab, List.flatMap_singleton, ih, hab, beq_self_eq_true, Bool.true_and]
        rfl
      · rw [if_neg hab, beq_false_of_ne fun h => hab h.symm, Bool.false_and]
        rfl

theorem removeFirst_literal (hne : literal ≠ []) (l : List α) :
    removeFirst (literal.map exactly) l =
      (Substitution.substituteFirst literal [] l).getD l := by
  induction l with
  | nil =>
    rw [removeFirst, rests_literal, Substitution.substituteFirst, Substitution.cutAt, if_neg hne]
    cases literal with
    | nil => exact absurd rfl hne
    | cons a literal => rfl
  | cons a l ih =>
    rw [removeFirst, rests_literal, Substitution.substituteFirst, Substitution.cutAt]
    split_ifs with hstart
    · rfl
    · rw [List.headD_nil, ih, Substitution.substituteFirst]
      cases Substitution.cutAt literal l <;> rfl

end Matching
