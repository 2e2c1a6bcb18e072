import Mathlib.Data.List.Basic

/-! Delimiters that nest, in a text in which one more character protects the next one from being a
delimiter. -/

namespace Nesting
variable {α : Type*}

/-- An opening and a closing delimiter, and what escapes them. -/
structure Delims (α : Type*) where
  opener : α
  closer : α
  escape : α

/-- Passes over what is in front of a cut. -/
def putFront (front : List α) (cut : Option (List α × List α)) : Option (List α × List α) :=
  cut.map fun (x, rest) => (front ++ x, rest)

theorem putFront_eq_some_iff {front x rest : List α} {cut : Option (List α × List α)} :
    putFront front cut = some (x, rest) ↔ ∃ y, cut = some (y, rest) ∧ front ++ y = x := by
  rcases cut with _ | ⟨y, r⟩
  · simp [putFront]
  · simp only [putFront, Option.map_some, Option.some.injEq, Prod.mk.injEq]
    constructor
    · rintro ⟨hx, rfl⟩
      exact ⟨y, ⟨rfl, rfl⟩, hx⟩
    · rintro ⟨y', ⟨rfl, rfl⟩, hx⟩
      exact ⟨hx, rfl⟩

theorem putFront_putFront (front front' : List α) (cut : Option (List α × List α)) :
    putFront front (putFront front' cut) = putFront (front ++ front') cut := by
  rcases cut with _ | ⟨x, rest⟩
  · rfl
  · simp [putFront]

@[simp] theorem putFront_nil (cut : Option (List α × List α)) : putFront [] cut = cut := by
  rcases cut with _ | ⟨x, rest⟩ <;> rfl

variable [DecidableEq α]

/-- What stands before and behind the delimiter that closes all that is open, the outermost pair and
`depth` ones in it. -/
def close (q : Delims α) : ℕ → List α → Option (List α × List α)
  | _, [] => none
  | depth, a :: l =>
    if a = q.escape then
      match l with
      | [] => none
      | b :: l => putFront [a, b] (close q depth l)
    else if a = q.opener then putFront [a] (close q (depth + 1) l)
    else if a = q.closer then
      match depth with
      | 0 => some ([], l)
      | depth + 1 => putFront [a] (close q depth l)
    else putFront [a] (close q depth l)

attribute [elab_as_elim] close.induct_unfolding

variable {q : Delims α} {depth : ℕ} {l x rest : List α}

section equations
variable {a : α}

@[simp] theorem close_nil : close q depth [] = none := by rw [close.eq_def]

theorem close_escape (b : α) (l : List α) :
    close q depth (q.escape :: b :: l) = putFront [q.escape, b] (close q depth l) := by
  rw [close.eq_def]
  simp only [if_true]

theorem close_opener (h : q.opener ≠ q.escape) (l : List α) :
    close q depth (q.opener :: l) = putFront [q.opener] (close q (depth + 1) l) := by
  rw [close.eq_def]
  simp only [h, if_false, if_true]

theorem close_closer_zero (he : q.closer ≠ q.escape) (ho : q.closer ≠ q.opener) (l : List α) :
    close q 0 (q.closer :: l) = some ([], l) := by
  rw [close.eq_def]
  simp only [he, ho, if_false, if_true]

theorem close_closer_succ (he : q.closer ≠ q.escape) (ho : q.closer ≠ q.opener) (l : List α) :
    close q (depth + 1) (q.closer :: l) = putFront [q.closer] (close q depth l) := by
  rw [close.eq_def]
  simp only [he, ho, if_false, if_true]

theorem close_other (he : a ≠ q.escape) (ho : a ≠ q.opener) (hc : a ≠ q.closer) (l : List α) :
    close q depth (a :: l) = putFront [a] (close q depth l) := by
  rw [close.eq_def]
  simp only [he, ho, hc, if_false]

end equations

/-- The closing delimiter stands between the parts. -/
theorem eq_of_close (h : close q depth l = some (x, rest)) : l = x ++ q.closer :: rest := by
  fun_induction close q depth l generalizing x rest with
  | case1 => cases h
  | case2 => cases h
  | case3 depth b l ih =>
    obtain ⟨y, hy, rfl⟩ := putFront_eq_some_iff.mp h
    rw [ih hy]
    rfl
  | case4 depth l he ih =>
    obtain ⟨y, hy, rfl⟩ := putFront_eq_some_iff.mp h
    rw [ih hy]
    rfl
  | case5 l he ho =>
    obtain ⟨rfl, rfl⟩ := Prod.mk.inj (Option.some.inj h)
    rfl
  | case6 l depth he ho ih =>
    obtain ⟨y, hy, rfl⟩ := putFront_eq_some_iff.mp h
    rw [ih hy]
    rfl
  | case7 depth a l he ho hc ih =>
    obtain ⟨y, hy, rfl⟩ := putFront_eq_some_iff.mp h
    rw [ih hy]
    rfl

theorem length_of_close (h : close q depth l = some (x, rest)) :
    x.length + rest.length < l.length := by
  rw [eq_of_close h, List.length_append, List.length_cons]
  omega

/-- More text behind does not matter. -/
theorem close_append (h : close q depth l = some (x, rest)) (l' : List α) :
    close q depth (l ++ l') = some (x, rest ++ l') := by
  fun_induction close q depth l generalizing x rest with
  | case1 => cases h
  | case2 => cases h
  | case3 depth b l ih =>
    obtain ⟨y, hy, rfl⟩ := putFront_eq_some_iff.mp h
    rw [List.cons_append, List.cons_append, close_escape, ih hy]
    rfl
  | case4 depth l he ih =>
    obtain ⟨y, hy, rfl⟩ := putFront_eq_some_iff.mp h
    rw [List.cons_append, close_opener he, ih hy]
    rfl
  | case5 l he ho =>
    obtain ⟨rfl, rfl⟩ := Prod.mk.inj (Option.some.inj h)
    rw [List.cons_append, close_closer_zero he ho]
  | case6 l depth he ho ih =>
    obtain ⟨y, hy, rfl⟩ := putFront_eq_some_iff.mp h
    rw [List.cons_append, close_closer_succ he ho, ih hy]
    rfl
  | case7 depth a l he ho hc ih =>
    obtain ⟨y, hy, rfl⟩ := putFront_eq_some_iff.mp h
    rw [List.cons_append, close_other he ho hc, ih hy]
    rfl

/-- Where the text is cut depends on no more than the part in front. -/
theorem close_front (h : close q depth l = some (x, rest)) :
    close q depth (x ++ [q.closer]) = some (x, []) := by
  fun_induction close q depth l generalizing x rest with
  | case1 => cases h
  | case2 => cases h
  | case3 depth b l ih =>
    obtain ⟨y, hy, rfl⟩ := putFront_eq_some_iff.mp h
    rw [List.append_assoc, List.cons_append, List.cons_append, List.nil_append, close_escape, ih hy]
    rfl
  | case4 depth l he ih =>
    obtain ⟨y, hy, rfl⟩ := putFront_eq_some_iff.mp h
    rw [List.append_assoc, List.singleton_append, close_opener he, ih hy]
    rfl
  | case5 l he ho =>
    obtain ⟨rfl, rfl⟩ := Prod.mk.inj (Option.some.inj h)
    rw [List.nil_append, close_closer_zero he ho]
  | case6 l depth he ho ih =>
    obtain ⟨y, hy, rfl⟩ := putFront_eq_some_iff.mp h
    rw [List.append_assoc, List.singleton_append, close_closer_succ he ho, ih hy]
    rfl
  | case7 depth a l he ho hc ih =>
    obtain ⟨y, hy, rfl⟩ := putFront_eq_some_iff.mp h
    rw [List.append_assoc, List.singleton_append, close_other he ho hc, ih hy]
    rfl

/-- With more pairs open outside, what closes the inner ones is passed over. -/
theorem close_add (h : close q depth l = some (x, rest)) (outer : ℕ) :
    close q (depth + 1 + outer) l = putFront (x ++ [q.closer]) (close q outer rest) := by
  fun_induction close q depth l generalizing x rest with
  | case1 => cases h
  | case2 => cases h
  | case3 depth b l ih =>
    obtain ⟨y, hy, rfl⟩ := putFront_eq_some_iff.mp h
    rw [close_escape, ih hy, putFront_putFront, List.append_assoc]
  | case4 depth l he ih =>
    obtain ⟨y, hy, rfl⟩ := putFront_eq_some_iff.mp h
    rw [close_opener he, show depth + 1 + outer + 1 = depth + 1 + 1 + outer by omega, ih hy,
      putFront_putFront, List.append_assoc]
  | case5 l he ho =>
    obtain ⟨rfl, rfl⟩ := Prod.mk.inj (Option.some.inj h)
    rw [Nat.zero_add, Nat.add_comm 1 outer, close_closer_succ he ho, List.nil_append]
  | case6 l depth he ho ih =>
    obtain ⟨y, hy, rfl⟩ := putFront_eq_some_iff.mp h
    rw [show depth + 1 + 1 + outer = depth + 1 + outer + 1 by omega, close_closer_succ he ho, ih hy,
      putFront_putFront, List.append_assoc]
  | case7 depth a l he ho hc ih =>
    obtain ⟨y, hy, rfl⟩ := putFront_eq_some_iff.mp h
    rw [close_other he ho hc, ih hy, putFront_putFront, List.append_assoc]

/-- Text without delimiters is passed over. -/
theorem close_clean (h : ∀ a ∈ l, a ≠ q.opener ∧ a ≠ q.closer ∧ a ≠ q.escape) (l' : List α) :
    close q depth (l ++ l') = putFront l (close q depth l') := by
  induction l with
  | nil => rw [List.nil_append, putFront_nil]
  | cons a l ih =>
    obtain ⟨⟨ho, hc, he⟩, hl⟩ := List.forall_mem_cons.mp h
    rw [List.cons_append, close_other he ho hc, ih hl, putFront_putFront]
    rfl

end Nesting
