import Mathlib.Tactic

/-! Formulas of names with `!`, `&&`, `||` and parentheses: how they are spelled, what they mean,
and how a text is read as one. -/

namespace Formulas

/-- The characters of a name. -/
def isNameChar (c : Char) : Bool := !"()&|".toList.contains c

/-- A name does not begin as a negation does. -/
def IsName (name : List Char) : Prop :=
  name ≠ [] ∧ (∀ c ∈ name, isNameChar c = true) ∧ name.head? ≠ some '!'

instance (name : List Char) : Decidable (IsName name) :=
  have : Decidable (∀ c ∈ name, isNameChar c = true) := List.decidableBAll _ _
  inferInstanceAs (Decidable (_ ∧ _ ∧ _))

inductive Level
  | unary
  | conj
  | disj

/-- Formulas, as they are grouped without parentheses. -/
inductive Formula : Level → Type
  | atom (name : List Char) (h : IsName name) : Formula .unary
  | not (f : Formula .unary) : Formula .unary
  | group (f : Formula .disj) : Formula .unary
  | unary (f : Formula .unary) : Formula .conj
  | and (f : Formula .unary) (g : Formula .conj) : Formula .conj
  | conj (f : Formula .conj) : Formula .disj
  | or (f : Formula .conj) (g : Formula .disj) : Formula .disj

namespace Formula

def text : {l : Level} → Formula l → List Char
  | _, atom name _ => name
  | _, not f => '!' :: f.text
  | _, group f => '(' :: (f.text ++ [')'])
  | _, unary f => f.text
  | _, and f g => f.text ++ ['&', '&'] ++ g.text
  | _, conj f => f.text
  | _, or f g => f.text ++ ['|', '|'] ++ g.text

/-- The value, if those of the names are given. -/
def eval (value : List Char → Bool) : {l : Level} → Formula l → Bool
  | _, atom name _ => value name
  | _, not f => !f.eval value
  | _, group f => f.eval value
  | _, unary f => f.eval value
  | _, and f g => f.eval value && g.eval value
  | _, conj f => f.eval value
  | _, or f g => f.eval value || g.eval value

/-- A conjunction behind another one. -/
def andThen : Formula .conj → Formula .conj → Formula .conj
  | unary f, g => and f g
  | and f f', g => and f (f'.andThen g)

theorem text_andThen (f g : Formula .conj) :
    (f.andThen g).text = f.text ++ ['&', '&'] ++ g.text := by
  match f with
  | unary f => rw [andThen, text, text]
  | and f f' =>
    rw [andThen, text, text, text_andThen f' g]
    simp

theorem eval_andThen (value : List Char → Bool) (f g : Formula .conj) :
    (f.andThen g).eval value = (f.eval value && g.eval value) := by
  match f with
  | unary f => rw [andThen, eval, eval]
  | and f f' =>
    rw [andThen, eval, eval, eval_andThen value f' g, Bool.and_assoc]

end Formula

/-! ### Reading -/

/-- A name at the start of a text, and the text behind it. -/
def parseName (text : List Char) : Option (Formula .unary × List Char) :=
  if h : IsName (text.takeWhile isNameChar) then
    some (.atom (text.takeWhile isNameChar) h, text.dropWhile isNameChar)
  else none

/-- A formula at the start of a text, and the text behind it. -/
def parseFrom : ℕ → (l : Level) → List Char → Option (Formula l × List Char)
  | 0, _, _ => none
  | fuel + 1, .unary, text =>
    match text with
    | '!' :: text => (parseFrom fuel .unary text).map fun (f, rest) => (.not f, rest)
    | '(' :: text =>
      match parseFrom fuel .disj text with
      | some (f, ')' :: rest) => some (.group f, rest)
      | _ => none
    | text => parseName text
  | fuel + 1, .conj, text =>
    match parseFrom fuel .unary text with
    | some (f, '&' :: '&' :: rest) =>
      (parseFrom fuel .conj rest).map fun (g, rest) => (.and f g, rest)
    | some (f, rest) => some (.unary f, rest)
    | none => none
  | fuel + 1, .disj, text =>
    match parseFrom fuel .conj text with
    | some (f, '|' :: '|' :: rest) =>
      (parseFrom fuel .disj rest).map fun (g, rest) => (.or f g, rest)
    | some (f, rest) => some (.conj f, rest)
    | none => none

/-- The formula that a text is. -/
def parse (text : List Char) : Option (Formula .disj) :=
  match parseFrom (3 * text.length + 3) .disj text with
  | some (f, []) => some f
  | _ => none

def Level.depth : Level → ℕ
  | unary => 1
  | conj => 2
  | disj => 3

/-- What does not go on with a formula. -/
def Stops : Level → List Char → Prop
  | .unary, rest => ∀ c ∈ rest.head?, c = '&' ∨ c = '|' ∨ c = ')'
  | .conj, rest => ∀ c ∈ rest.head?, c = '|' ∨ c = ')'
  | .disj, rest => ∀ c ∈ rest.head?, c = ')'

theorem Formula.text_ne_nil {l : Level} (f : Formula l) : f.text ≠ [] := by
  induction f with
  | atom name h => exact h.1
  | not f ih => exact List.cons_ne_nil _ _
  | group f ih => exact List.cons_ne_nil _ _
  | unary f ih => exact ih
  | and f g ihf ihg => simp [Formula.text]
  | conj f ih => exact ih
  | or f g ihf ihg => simp [Formula.text]

theorem takeWhile_name {name rest : List Char} (h : IsName name) (hstop : Stops .unary rest) :
    (name ++ rest).takeWhile isNameChar = name ∧ (name ++ rest).dropWhile isNameChar = rest := by
  have hrest : rest.takeWhile isNameChar = [] ∧ rest.dropWhile isNameChar = rest := by
    cases rest with
    | nil => exact ⟨rfl, rfl⟩
    | cons c rest =>
      have hc : isNameChar c = false := by
        rcases hstop c rfl with rfl | rfl | rfl <;> decide
      exact ⟨List.takeWhile_cons_of_neg (by simp [hc]), List.dropWhile_cons_of_neg (by simp [hc])⟩
  rw [List.takeWhile_append_of_pos h.2.1, List.dropWhile_append_of_pos h.2.1, hrest.1, hrest.2,
    List.append_nil]
  exact ⟨rfl, rfl⟩

theorem parseName_append {name rest : List Char} (h : IsName name) (hstop : Stops .unary rest) :
    parseName (name ++ rest) = some (.atom name h, rest) := by
  obtain ⟨htake, hdrop⟩ := takeWhile_name h hstop
  simp only [parseName, htake, hdrop, h, dite_true]

/-- A formula is read back, if the text behind it does not go on with it. -/
theorem parseFrom_text {l : Level} (f : Formula l) {rest : List Char} (hstop : Stops l rest)
    {fuel : ℕ} (hfuel : 3 * f.text.length + l.depth ≤ fuel) :
    parseFrom fuel l (f.text ++ rest) = some (f, rest) := by
  induction f generalizing rest fuel with
  | atom name h =>
    obtain ⟨fuel, rfl⟩ := Nat.exists_eq_add_one_of_ne_zero
      (by simp only [Level.depth] at hfuel; omega : fuel ≠ 0)
    obtain ⟨c, name', rfl⟩ := List.exists_cons_of_ne_nil h.1
    have hbang : c ≠ '!' := fun hc => h.2.2 (by rw [hc]; rfl)
    have hopen : c ≠ '(' := by
      rintro rfl
      exact absurd (h.2.1 '(' List.mem_cons_self) (by decide)
    rw [parseFrom]
    · exact parseName_append h hstop
    · exact fun text htext => hbang (List.cons.inj htext).1
    · exact fun text htext => hopen (List.cons.inj htext).1
  | not f ih =>
    rw [Formula.text, List.length_cons] at hfuel
    obtain ⟨fuel, rfl⟩ := Nat.exists_eq_add_one_of_ne_zero (by omega : fuel ≠ 0)
    have hf := ih hstop (by omega : 3 * f.text.length + Level.unary.depth ≤ fuel)
    rw [Formula.text, List.cons_append, parseFrom]
    simp only [hf, Option.map_some]
  | group f ih =>
    simp only [Formula.text, List.length_cons, List.length_append, List.length_nil,
      Level.depth] at hfuel
    obtain ⟨fuel, rfl⟩ := Nat.exists_eq_add_one_of_ne_zero (by omega : fuel ≠ 0)
    have hclose : Stops .disj (')' :: rest) := by
      rintro _ ⟨⟩
      rfl
    have hf := ih hclose
      (by simp only [Level.depth]; omega : 3 * f.text.length + Level.disj.depth ≤ fuel)
    rw [Formula.text, List.cons_append, List.append_assoc, List.singleton_append, parseFrom]
    simp only [hf]
  | unary f ih =>
    rw [Formula.text, Level.depth] at hfuel
    obtain ⟨fuel, rfl⟩ := Nat.exists_eq_add_one_of_ne_zero (by omega : fuel ≠ 0)
    have hf := ih (fun c hc => Or.inr (hstop c hc))
      (by rw [Level.depth]; omega : 3 * f.text.length + Level.unary.depth ≤ fuel)
    rw [Formula.text, parseFrom, hf]
    split
    next heq =>
      obtain ⟨-, rfl⟩ := Prod.mk.inj (Option.some.inj heq)
      rcases hstop '&' rfl with h | h <;> cases h
    next heq =>
      obtain ⟨rfl, rfl⟩ := Prod.mk.inj (Option.some.inj heq)
      rfl
    next heq => cases heq
  | and f g ihf ihg =>
    simp only [Formula.text, List.length_cons, List.length_append, List.length_nil,
      Level.depth] at hfuel
    obtain ⟨fuel, rfl⟩ := Nat.exists_eq_add_one_of_ne_zero (by omega : fuel ≠ 0)
    have hand : Stops .unary ('&' :: '&' :: (g.text ++ rest)) := by
      rintro _ ⟨⟩
      exact Or.inl rfl
    have hf := ihf hand
      (by rw [Level.depth]; omega : 3 * f.text.length + Level.unary.depth ≤ fuel)
    have hg := ihg hstop
      (by rw [Level.depth]; omega : 3 * g.text.length + Level.conj.depth ≤ fuel)
    have htext : (Formula.and f g).text ++ rest = f.text ++ '&' :: '&' :: (g.text ++ rest) := by
      simp [Formula.text]
    rw [htext, parseFrom]
    simp only [hf, hg, Option.map_some]
  | conj f ih =>
    rw [Formula.text, Level.depth] at hfuel
    obtain ⟨fuel, rfl⟩ := Nat.exists_eq_add_one_of_ne_zero (by omega : fuel ≠ 0)
    have hf := ih (fun c hc => Or.inr (hstop c hc))
      (by rw [Level.depth]; omega : 3 * f.text.length + Level.conj.depth ≤ fuel)
    rw [Formula.text, parseFrom, hf]
    split
    next heq =>
      obtain ⟨-, rfl⟩ := Prod.mk.inj (Option.some.inj heq)
      cases hstop '|' rfl
    next heq =>
      obtain ⟨rfl, rfl⟩ := Prod.mk.inj (Option.some.inj heq)
      rfl
    next heq => cases heq
  | or f g ihf ihg =>
    simp only [Formula.text, List.length_cons, List.length_append, List.length_nil,
      Level.depth] at hfuel
    obtain ⟨fuel, rfl⟩ := Nat.exists_eq_add_one_of_ne_zero (by omega : fuel ≠ 0)
    have hor : Stops .conj ('|' :: '|' :: (g.text ++ rest)) := by
      rintro _ ⟨⟩
      exact Or.inl rfl
    have hf := ihf hor
      (by rw [Level.depth]; omega : 3 * f.text.length + Level.conj.depth ≤ fuel)
    have hg := ihg hstop
      (by rw [Level.depth]; omega : 3 * g.text.length + Level.disj.depth ≤ fuel)
    have htext : (Formula.or f g).text ++ rest = f.text ++ '|' :: '|' :: (g.text ++ rest) := by
      simp [Formula.text]
    rw [htext, parseFrom]
    simp only [hf, hg, Option.map_some]

/-- A formula is what its text is read as. -/
theorem parse_text (f : Formula .disj) : parse f.text = some f := by
  have hend : Stops .disj [] := fun _ hc => nomatch hc
  have hf : parseFrom (3 * f.text.length + 3) .disj (f.text ++ []) = some (f, []) :=
    parseFrom_text f hend le_rfl
  rw [List.append_nil] at hf
  rw [parse, hf]

end Formulas
