import Awb.Run.Ranges
import Mathlib.Data.Prod.Lex

/-! When the experiments of a line are those of the cross product: the references of the name are
replaced one after the other, each by the first match of a pattern. -/

namespace Awb.Run.Experiments

open Substitution (substituteFirst cutAt)

deriving instance DecidableEq for Piece

def render (pieces : List Piece) : Text := pieces.flatMap Piece.text

/-- Every `${` of a name is a reference. -/
structure Clean (pieces : List Piece) : Prop where
  names : ∀ pname, .ref pname ∈ pieces → isName pname = true
  apart : pieces.IsChain fun a b => ¬ (a = .char '$' ∧ b = .char '\x7b')

def chars (text : Text) : List Piece := text.map .char

/-- The first reference to a parameter is replaced. -/
def replaceRef (pname i : Text) : List Piece → List Piece
  | [] => []
  | .char c :: pieces => .char c :: replaceRef pname i pieces
  | .ref other :: pieces =>
    if other = pname then chars i ++ pieces else .ref other :: replaceRef pname i pieces

/-- Without the dollars at the beginning, if there are so many. -/
def eatDollars : ℕ → List Piece → Option (List Piece)
  | 0, pieces => some pieces
  | _ + 1, [] => none
  | n + 1, .char c :: pieces => if c = '$' then eatDollars n pieces else none
  | n + 1, .ref pname :: pieces =>
    if n = 0 then some (chars ('\x7b' :: pname ++ ['\x7d']) ++ pieces) else none

/-- The first dollars in a row are replaced. -/
def replaceDollars (n : ℕ) (i : Text) : List Piece → List Piece
  | [] => if n = 0 then chars i else []
  | piece :: pieces =>
    match eatDollars n (piece :: pieces) with
    | some rest => chars i ++ rest
    | none => piece :: replaceDollars n i pieces

/-- A name that is a number is a quantifier of the dollar. -/
def Perl.replace (perl : Perl) (pname i : Text) (pieces : List Piece) : Option (List Piece) :=
  if isNumber pname then (perl.quantifier pname).map fun n => replaceDollars n i pieces
  else some (replaceRef pname i pieces)

/-- Each parameter has one reference at most. One whose name is a number has none, and there are not
so many dollars in a row that its pattern matches. -/
def Replaced (perl : Perl) : List Piece → List (Text × Text) → Prop
  | _, [] => True
  | pieces, (pname, i) :: choice =>
    if isNumber pname then
      .ref pname ∉ pieces ∧
        (∃ n, perl.quantifier pname = some n ∧ ¬ List.replicate n '$' <:+: render pieces) ∧
        Replaced perl pieces choice
    else pieces.count (.ref pname) ≤ 1 ∧ Replaced perl (replaceRef pname i pieces) choice

/-- The quantifiers are allowed, as far as there are values. -/
def QuantifiersOk (perl : Perl) : List Token → Prop
  | [] => True
  | .plain _ :: tokens => QuantifiersOk perl tokens
  | .ranged pname choices :: tokens => choices.values = [] ∨
      ((isNumber pname = true → (perl.quantifier pname).isSome) ∧ QuantifiersOk perl tokens)

/-- A line with the name, the model and the parameters of an experiment. -/
structure RangedLine (fronts : List (Text × Text)) (last : Text) (pieces : List Piece)
    (model : Text) (tokens : List Token) : Prop where
  written : Written fronts last (render pieces :: model :: tokens.map Token.text)
  clean : Clean pieces
  refers : ∀ pname, .ref pname ∈ pieces → pname ∈ tokens.filterMap Token.pname
  distinct : (tokens.filterMap Token.pname).Nodup
  valid : ∀ token ∈ tokens, token.Valid

/-! ### Replacing in a name -/

variable {perl : Perl} {pieces rest : List Piece} {pname i name text a : Text} {c : Char} {n : ℕ}

/-- A value of a parameter. -/
def IsValue (i : Text) : Prop := i ≠ [] ∧ '$' ∉ i ∧ '\x7b' ∉ i ∧ '\x7d' ∉ i

theorem render_cons (piece : Piece) (pieces : List Piece) :
    render (piece :: pieces) = piece.text ++ render pieces := List.flatMap_cons

theorem render_append (pieces rest : List Piece) :
    render (pieces ++ rest) = render pieces ++ render rest := List.flatMap_append

theorem render_chars (text : Text) : render (chars text) = text := by
  rw [render, chars, List.flatMap_map]
  exact List.flatMap_singleton' text

theorem substituteFirst_nil (i name : Text) : substituteFirst [] i name = some (i ++ name) := by
  cases name <;> rfl

theorem substituteFirst_begins (search i : Text) (hne : search ≠ []) (rest : Text) :
    substituteFirst search i (search ++ rest) = some (i ++ rest) := by
  obtain ⟨c, search, rfl⟩ := List.exists_cons_of_ne_nil hne
  have hbegins : (c :: search).isPrefixOf (c :: (search ++ rest)) = true :=
    List.isPrefixOf_iff_prefix.mpr ⟨rest, rfl⟩
  rw [substituteFirst, List.cons_append, cutAt, if_pos hbegins, ← List.cons_append, List.drop_left]
  rfl

theorem substituteFirst_cons {search : Text} (h : ¬ search <+: c :: text) :
    (substituteFirst search i (c :: text)).getD (c :: text) =
      c :: (substituteFirst search i text).getD text := by
  rw [substituteFirst, cutAt, if_neg fun hbegins => h (List.isPrefixOf_iff_prefix.mp hbegins),
    substituteFirst]
  cases cutAt search text <;> rfl

/-- No match begins before the first character of the pattern. -/
theorem substituteFirst_append {search : Text} (hmem : c ∉ a) (text : Text) :
    (substituteFirst (c :: search) i (a ++ text)).getD (a ++ text) =
      a ++ (substituteFirst (c :: search) i text).getD text := by
  induction a with
  | nil => rfl
  | cons d a ih =>
    rw [List.mem_cons, not_or] at hmem
    have hbegins : ¬ c :: search <+: d :: (a ++ text) := fun h =>
      hmem.1 (List.cons_prefix_cons.mp h).1
    rw [List.cons_append, substituteFirst_cons hbegins, ih hmem.2]
    rfl

theorem Clean.tail {piece : Piece} (h : Clean (piece :: pieces)) : Clean pieces :=
  ⟨fun pname hmem => h.names pname (List.mem_cons_of_mem _ hmem), h.apart.tail⟩

/-- A reference behind its dollar. -/
def braced (pname : Text) : Text := '\x7b' :: (pname ++ ['\x7d'])

theorem reference_eq (pname : Text) : reference pname = '$' :: braced pname := rfl

theorem braced_begins {other : Text} (hname : isName pname = true) (hother : isName other = true)
    (h : braced pname <+: braced other ++ text) : pname = other := by
  obtain ⟨rest, hrest⟩ := h
  have hbraces : pname ++ '\x7d' :: rest = other ++ '\x7d' :: text := by
    simpa [braced] using hrest
  have hword : ∀ {name : Text} (rest : Text), isName name = true →
      (name ++ '\x7d' :: rest).takeWhile isWordChar = name := by
    intro name rest hname
    rw [isName, Bool.and_eq_true, List.all_eq_true] at hname
    rw [List.takeWhile_append_of_pos hname.2, List.takeWhile_cons_of_neg (by decide),
      List.append_nil]
  rw [← hword rest hname, hbraces, hword text hother]

/-- Behind a dollar that is no reference no braces begin. -/
theorem Clean.not_brace (h : Clean (.char '$' :: pieces)) : ¬ '\x7b' :: a <+: render pieces := by
  intro hstart
  cases pieces with
  | nil => cases List.prefix_nil.mp hstart
  | cons next pieces =>
    rw [render_cons] at hstart
    cases next with
    | char d =>
      obtain ⟨rfl, -⟩ := List.cons_prefix_cons.mp hstart
      exact (List.isChain_cons_cons.mp h.apart).1 ⟨rfl, rfl⟩
    | ref other => cases (List.cons_prefix_cons.mp hstart).1

/-- A reference is found only where the name has one. -/
theorem substituteFirst_reference (h : Clean pieces) (hname : isName pname = true) (i : Text) :
    (substituteFirst (reference pname) i (render pieces)).getD (render pieces) =
      render (replaceRef pname i pieces) := by
  induction pieces with
  | nil => rfl
  | cons piece pieces ih =>
    have htail := ih h.tail
    rw [render_cons]
    cases piece with
    | char c =>
      have hbegins : ¬ reference pname <+: c :: render pieces := by
        intro hstart
        rw [reference_eq, List.cons_prefix_cons] at hstart
        obtain ⟨rfl, hstart⟩ := hstart
        exact h.not_brace hstart
      rw [Piece.text, List.singleton_append, substituteFirst_cons hbegins, htail, replaceRef,
        render_cons]
      rfl
    | ref other =>
      rw [Piece.text, replaceRef]
      split_ifs with hsame
      · subst hsame
        rw [substituteFirst_begins (reference other) i (List.cons_ne_nil _ _), Option.getD_some,
          render_append, render_chars]
      · have hother := h.names other List.mem_cons_self
        have hbegins : ¬ reference pname <+: '$' :: (braced other ++ render pieces) := by
          intro hstart
          rw [reference_eq, List.cons_prefix_cons] at hstart
          exact hsame (braced_begins hname hother hstart.2).symm
        have hdollar : '$' ∉ braced other := by
          simpa [braced] using notMem_name hother rfl
        rw [reference_eq other, List.cons_append, substituteFirst_cons hbegins, reference_eq pname,
          substituteFirst_append hdollar, ← reference_eq pname, htail, render_cons]
        rfl

/-! ### Clean names stay clean -/

theorem clean_cons {piece : Piece} : Clean (piece :: pieces) ↔
    (∀ pname, piece = .ref pname → isName pname = true) ∧
      (piece = .char '$' → pieces.head? ≠ some (.char '\x7b')) ∧ Clean pieces := by
  constructor
  · intro h
    refine ⟨fun pname heq => h.names pname (heq ▸ List.mem_cons_self), fun heq hhead => ?_, h.tail⟩
    obtain ⟨rest, rfl⟩ := List.head?_eq_some_iff.mp hhead
    exact (List.isChain_cons_cons.mp h.apart).1 ⟨heq, rfl⟩
  · rintro ⟨hname, hhead, hclean⟩
    refine ⟨fun pname hmem => ?_, ?_⟩
    · rcases List.mem_cons.mp hmem with heq | hmem
      · exact hname pname heq.symm
      · exact hclean.names pname hmem
    · cases pieces with
      | nil => exact List.isChain_singleton _
      | cons next pieces =>
        refine List.isChain_cons_cons.mpr ⟨?_, hclean.apart⟩
        rintro ⟨hdollar, rfl⟩
        exact hhead hdollar rfl

theorem clean_chars_append (hdollar : '$' ∉ text) (h : Clean pieces) :
    Clean (chars text ++ pieces) := by
  induction text with
  | nil => exact h
  | cons c text ih =>
    rw [List.mem_cons, not_or] at hdollar
    refine clean_cons.mpr ⟨fun _ heq => (nomatch heq), fun heq => ?_, ih hdollar.2⟩
    exact absurd (Piece.char.inj heq).symm hdollar.1

theorem head_chars_append (hi : IsValue i) (pieces : List Piece) :
    (chars i ++ pieces).head? ≠ some (.char '\x7b') := by
  obtain ⟨c, i, rfl⟩ := List.exists_cons_of_ne_nil hi.1
  rintro heq
  obtain rfl := Piece.char.inj (Option.some.inj heq)
  exact hi.2.2.1 List.mem_cons_self

theorem Clean.replaceRef (h : Clean pieces) (hi : IsValue i) (pname : Text) :
    Clean (replaceRef pname i pieces) ∧ ((replaceRef pname i pieces).head? =
      some (.char '\x7b') → pieces.head? = some (.char '\x7b')) := by
  induction pieces with
  | nil => exact ⟨h, id⟩
  | cons piece pieces ih =>
    obtain ⟨hname, hhead, htail⟩ := clean_cons.mp h
    obtain ⟨hclean, hheadRest⟩ := ih htail
    cases piece with
    | char c =>
      exact ⟨clean_cons.mpr ⟨hname, fun heq hbrace => hhead heq (hheadRest hbrace), hclean⟩, id⟩
    | ref other =>
      rw [Experiments.replaceRef]
      split_ifs with hsame
      · exact ⟨clean_chars_append hi.2.1 htail, fun heq => absurd heq (head_chars_append hi _)⟩
      · exact ⟨clean_cons.mpr ⟨hname, fun heq => (nomatch heq), hclean⟩, fun heq => (nomatch heq)⟩

theorem Clean.eatDollars (h : Clean pieces) (heat : eatDollars n pieces = some rest) :
    Clean rest := by
  induction n generalizing pieces with
  | zero =>
    obtain rfl := Option.some.inj heat
    exact h
  | succ n ih =>
    cases pieces with
    | nil => cases heat
    | cons piece pieces =>
      cases piece with
      | char c =>
        rw [Experiments.eatDollars] at heat
        split_ifs at heat
        exact ih h.tail heat
      | ref other =>
        rw [Experiments.eatDollars] at heat
        split_ifs at heat
        obtain rfl := Option.some.inj heat
        refine clean_chars_append ?_ h.tail
        have hother := notMem_name (h.names other List.mem_cons_self) (c := '$') rfl
        simpa using hother

theorem Clean.replaceDollars (h : Clean pieces) (hi : IsValue i) (n : ℕ) :
    Clean (replaceDollars n i pieces) ∧ ((replaceDollars n i pieces).head? =
      some (.char '\x7b') → pieces.head? = some (.char '\x7b')) := by
  induction pieces with
  | nil =>
    rw [Experiments.replaceDollars]
    split_ifs
    · have hclean := clean_chars_append hi.2.1 h
      have hhead := head_chars_append hi []
      rw [List.append_nil] at hclean hhead
      exact ⟨hclean, fun heq => absurd heq hhead⟩
    · exact ⟨h, id⟩
  | cons piece pieces ih =>
    obtain ⟨hname, hhead, htail⟩ := clean_cons.mp h
    obtain ⟨hclean, hheadRest⟩ := ih htail
    rw [Experiments.replaceDollars]
    cases heat : Experiments.eatDollars n (piece :: pieces) with
    | some rest =>
      exact ⟨clean_chars_append hi.2.1 (h.eatDollars heat),
        fun heq => absurd heq (head_chars_append hi _)⟩
    | none =>
      exact ⟨clean_cons.mpr ⟨hname, fun heq hbrace => hhead heq (hheadRest hbrace), hclean⟩, id⟩

/-! ### Dollars in a row -/

theorem render_eatDollars (heat : eatDollars n pieces = some rest) :
    render pieces = List.replicate n '$' ++ render rest := by
  induction n generalizing pieces with
  | zero =>
    obtain rfl := Option.some.inj heat
    rfl
  | succ n ih =>
    cases pieces with
    | nil => cases heat
    | cons piece pieces =>
      cases piece with
      | char c =>
        rw [eatDollars] at heat
        split_ifs at heat with hdollar
        rw [render_cons, ih heat, hdollar]
        rfl
      | ref other =>
        rw [eatDollars] at heat
        split_ifs at heat with hn
        obtain rfl := Option.some.inj heat
        rw [render_cons, hn, render_append, render_chars]
        rfl

theorem not_prefix_of_eatDollars (heat : eatDollars n pieces = none) :
    ¬ List.replicate n '$' <+: render pieces := by
  induction n generalizing pieces with
  | zero => cases heat
  | succ n ih =>
    rw [List.replicate_succ]
    cases pieces with
    | nil => exact fun h => nomatch List.prefix_nil.mp h
    | cons piece pieces =>
      rw [render_cons]
      cases piece with
      | char c =>
        rw [eatDollars] at heat
        intro hbegins
        obtain ⟨hdollar, hbegins⟩ := List.cons_prefix_cons.mp hbegins
        rw [if_pos hdollar.symm] at heat
        exact ih heat hbegins
      | ref other =>
        rw [eatDollars] at heat
        split_ifs at heat with hn
        obtain ⟨n, rfl⟩ := Nat.exists_eq_succ_of_ne_zero hn
        intro hbegins
        rw [List.replicate_succ] at hbegins
        obtain ⟨-, hbegins⟩ := List.cons_prefix_cons.mp hbegins
        cases (List.cons_prefix_cons.mp hbegins).1

theorem eatDollars_isSome (h : eatDollars n pieces = none) : ∃ m, n = m + 1 := by
  cases n with
  | zero => cases h
  | succ m => exact ⟨m, rfl⟩

/-- Dollars are found where the name has them, also in front of a reference. -/
theorem substituteFirst_dollars (h : Clean pieces) (n : ℕ) (i : Text) :
    (substituteFirst (List.replicate n '$') i (render pieces)).getD (render pieces) =
      render (replaceDollars n i pieces) := by
  induction pieces with
  | nil =>
    cases n with
    | zero => exact (List.append_nil i).trans (render_chars i).symm
    | succ n => rfl
  | cons piece pieces ih =>
    rw [replaceDollars]
    cases heat : eatDollars n (piece :: pieces) with
    | some rest =>
      rw [render_eatDollars heat]
      dsimp only
      rw [render_append, render_chars]
      cases n with
      | zero => rw [List.replicate_zero, List.nil_append, substituteFirst_nil, Option.getD_some]
      | succ n =>
        rw [substituteFirst_begins _ i (by simp), Option.getD_some]
    | none =>
      have hbegins := not_prefix_of_eatDollars heat
      obtain ⟨m, rfl⟩ := eatDollars_isSome heat
      have htail := ih h.tail
      dsimp only
      rw [render_cons] at hbegins ⊢
      rw [render_cons]
      cases piece with
      | char c =>
        rw [Piece.text, List.singleton_append] at hbegins ⊢
        rw [substituteFirst_cons hbegins, htail]
        rfl
      | ref other =>
        have hdollar : '$' ∉ braced other := by
          simpa [braced] using notMem_name (h.names other List.mem_cons_self) rfl
        rw [Piece.text, reference_eq, List.cons_append] at hbegins ⊢
        rw [substituteFirst_cons hbegins, List.replicate_succ, substituteFirst_append hdollar,
          ← List.replicate_succ, htail]
        rfl

/-- What Perl makes of a name. -/
theorem substitute_render (h : Clean pieces) (hname : isName pname = true) (i : Text) :
    perl.substitute pname i (render pieces) = (perl.replace pname i pieces).map render := by
  rw [Perl.replace]
  split_ifs with hnumber
  · rw [perl.substitute_number pname i _ hnumber, Option.map_map]
    refine congrArg (Option.map · _) (funext fun n => ?_)
    exact substituteFirst_dollars h n i
  · rw [perl.substitute_name pname i _ hname (Bool.not_eq_true _ ▸ hnumber),
      substituteFirst_reference h hname]
    rfl

/-! ### What a wrong replacement leaves behind -/

variable {choice : List (Text × Text)} {other : Text}

/-- An opening brace counts more than the dollar before it: a reference that is left or is broken
adds to the weight of a name, and so do dollars that are lost. -/
def weight (text : Text) : ℤ := 2 * text.count '\x7b' - text.count '$'

/-- By weight, and among names of the same weight by length. -/
def size (text : Text) : ℤ ×ₗ ℕ := toLex (weight text, text.length)

theorem weight_append (text rest : Text) : weight (text ++ rest) = weight text + weight rest := by
  rw [weight, weight, weight, List.count_append, List.count_append]
  push_cast
  ring

theorem weight_value (hi : IsValue i) : weight i = 0 := by
  rw [weight, List.count_eq_zero_of_not_mem hi.2.1, List.count_eq_zero_of_not_mem hi.2.2.1]
  rfl

theorem weight_braced (hname : isName pname = true) : weight (braced pname) = 2 := by
  have hbrace := List.count_eq_zero_of_not_mem (notMem_name hname (c := '\x7b') rfl)
  have hdollar := List.count_eq_zero_of_not_mem (notMem_name hname (c := '$') rfl)
  simp [weight, braced, hbrace, hdollar]

theorem weight_reference (hname : isName pname = true) : weight (reference pname) = 1 := by
  rw [reference_eq, ← List.singleton_append, weight_append, weight_braced hname]
  rfl

theorem size_lt_of_weight {text rest : Text} (h : weight text < weight rest) :
    size text < size rest := Prod.Lex.toLex_lt_toLex.mpr (Or.inl h)

theorem size_lt_value (hi : IsValue i) (text : Text) : size text < size (i ++ text) := by
  refine Prod.Lex.toLex_lt_toLex.mpr (Or.inr ⟨?_, ?_⟩)
  · rw [weight_append, weight_value hi, zero_add]
  · rw [List.length_append]
    have hlength := List.length_pos_of_ne_nil hi.1
    omega

/-- The values of a choice. -/
def Values (choice : List (Text × Text)) : Prop :=
  ∀ entry ∈ choice, isName entry.1 = true ∧ IsValue entry.2

theorem fill_cons (piece : Piece) (pieces : List Piece) :
    fill choice (piece :: pieces) = piece.filled choice ++ fill choice pieces := List.flatMap_cons

theorem fill_append (pieces rest : List Piece) :
    fill choice (pieces ++ rest) = fill choice pieces ++ fill choice rest := List.flatMap_append

theorem filled_char (c : Char) : (Piece.char c).filled choice = [c] := rfl

theorem filled_ref (pname : Text) :
    (Piece.ref pname).filled choice = (choice.lookup pname).getD (reference pname) := rfl

theorem fill_chars (text : Text) : fill choice (chars text) = text := by
  rw [fill, chars, List.flatMap_map]
  exact List.flatMap_singleton' text

theorem fill_nil (pieces : List Piece) : fill [] pieces = render pieces := by
  rw [fill, render]
  refine List.flatMap_congr fun piece _ => ?_
  cases piece <;> rfl

theorem filled_ref_cons (h : other ≠ pname) :
    (Piece.ref other).filled ((pname, i) :: choice) = (Piece.ref other).filled choice := by
  rw [filled_ref, filled_ref, List.lookup_cons, beq_false_of_ne h]

theorem filled_ref_self (pname i : Text) :
    (Piece.ref pname).filled ((pname, i) :: choice) = i := by
  rw [filled_ref, List.lookup_cons, beq_self_eq_true]
  rfl

/-- A reference has a value, which weighs nothing, or is still there. -/
theorem weight_filled_ref (hvalues : Values choice) (hname : isName pname = true) :
    weight ((Piece.ref pname).filled choice) = 0 ∨
      weight ((Piece.ref pname).filled choice) = 1 := by
  rw [filled_ref]
  cases hlookup : choice.lookup pname with
  | none => exact Or.inr (weight_reference hname)
  | some i =>
    have hmem : (pname, i) ∈ choice := by
      obtain ⟨front, back, rfl, -⟩ := List.lookup_eq_some_iff.mp hlookup
      simp
    exact Or.inl (weight_value (hvalues _ hmem).2)

/-- A value that is not chosen any more leaves the references. -/
theorem weight_fill_cons (hclean : Clean pieces) (hname : isName pname = true) (hi : IsValue i)
    (hlookup : choice.lookup pname = none) : weight (fill choice pieces) =
      weight (fill ((pname, i) :: choice) pieces) + pieces.count (.ref pname) := by
  induction pieces with
  | nil => rfl
  | cons piece pieces ih =>
    rw [fill_cons, fill_cons piece, weight_append, weight_append, ih hclean.tail, List.count_cons]
    cases piece with
    | char c => simp [filled_char, add_assoc]
    | ref other =>
      by_cases hsame : other = pname
      · subst hsame
        rw [filled_ref_self, weight_value hi, filled_ref, hlookup, Option.getD_none,
          weight_reference hname, beq_self_eq_true, if_pos rfl]
        push_cast
        ring
      · rw [filled_ref_cons hsame, if_neg (by simpa using hsame)]
        push_cast
        ring

theorem fill_cons_of_notMem (h : .ref pname ∉ pieces) (i : Text) :
    fill ((pname, i) :: choice) pieces = fill choice pieces := by
  induction pieces with
  | nil => rfl
  | cons piece pieces ih =>
    rw [List.mem_cons, not_or] at h
    rw [fill_cons, fill_cons piece, ih h.2]
    cases piece with
    | char c => rw [filled_char, filled_char]
    | ref other => rw [filled_ref_cons fun heq => h.1 (by rw [heq])]

theorem size_fill_cons (hclean : Clean pieces) (hname : isName pname = true) (hi : IsValue i)
    (hlookup : choice.lookup pname = none) (hmem : .ref pname ∈ pieces) :
    size (fill ((pname, i) :: choice) pieces) < size (fill choice pieces) := by
  refine size_lt_of_weight ?_
  rw [weight_fill_cons hclean hname hi hlookup]
  have hpos := List.count_pos_iff.mpr hmem
  omega

/-- The first reference is replaced; the others are left. -/
theorem fill_replaceRef (hclean : Clean pieces) (hname : isName pname = true) (hi : IsValue i)
    (hlookup : choice.lookup pname = none) :
    (pieces.count (.ref pname) ≤ 1 → fill choice (replaceRef pname i pieces) =
      fill ((pname, i) :: choice) pieces) ∧
    (1 < pieces.count (.ref pname) → weight (fill ((pname, i) :: choice) pieces) <
      weight (fill choice (replaceRef pname i pieces))) := by
  induction pieces with
  | nil => exact ⟨fun _ => rfl, fun h => absurd h (by simp)⟩
  | cons piece pieces ih =>
    obtain ⟨hone, hmany⟩ := ih hclean.tail
    rw [fill_cons piece, List.count_cons]
    cases piece with
    | char c =>
      rw [replaceRef, fill_cons, filled_char, filled_char, if_neg (by simp), Nat.add_zero]
      refine ⟨fun h => by rw [hone h], fun h => ?_⟩
      rw [weight_append, weight_append]
      linarith [hmany h]
    | ref other =>
      rw [replaceRef]
      by_cases hsame : other = pname
      · subst hsame
        rw [if_pos rfl, fill_append, fill_chars, filled_ref_self, beq_self_eq_true, if_pos rfl]
        refine ⟨fun h => ?_, fun h => ?_⟩
        · rw [fill_cons_of_notMem (List.count_eq_zero.mp (by omega))]
        · rw [weight_append, weight_append, weight_fill_cons hclean.tail hname hi hlookup]
          omega
      · rw [if_neg hsame, fill_cons, filled_ref_cons hsame, if_neg (by simpa using hsame),
          Nat.add_zero]
        refine ⟨fun h => by rw [hone h], fun h => ?_⟩
        rw [weight_append, weight_append]
        linarith [hmany h]

theorem weight_eatDollars (hvalues : Values choice) (hclean : Clean pieces)
    (heat : eatDollars n pieces = some rest) :
    weight (fill choice pieces) + n ≤ weight (fill choice rest) := by
  induction n generalizing pieces with
  | zero =>
    obtain rfl := Option.some.inj heat
    simp
  | succ n ih =>
    cases pieces with
    | nil => cases heat
    | cons piece pieces =>
      rw [fill_cons, weight_append]
      cases piece with
      | char c =>
        rw [eatDollars] at heat
        split_ifs at heat with hdollar
        have hrest := ih hclean.tail heat
        have hweight : weight ['$'] = -1 := rfl
        rw [filled_char, hdollar, hweight]
        push_cast
        linarith
      | ref other =>
        rw [eatDollars] at heat
        split_ifs at heat with hn
        obtain rfl := Option.some.inj heat
        have hother := hclean.names other List.mem_cons_self
        have hbraced : weight ('\x7b' :: other ++ ['\x7d']) = 2 := weight_braced hother
        rw [fill_append, fill_chars, weight_append, hbraced, hn]
        rcases weight_filled_ref hvalues hother with hweight | hweight <;>
        · rw [hweight]
          push_cast
          linarith

theorem infix_append_of_notMem (hmem : c ∉ a) (pattern : Text) :
    c :: pattern <:+: a ++ text ↔ c :: pattern <:+: text := by
  induction a with
  | nil => rfl
  | cons d a ih =>
    rw [List.mem_cons, not_or] at hmem
    rw [List.cons_append, List.infix_cons_iff, ih hmem.2, or_iff_right]
    exact fun hbegins => hmem.1 (List.cons_prefix_cons.mp hbegins).1

/-- Dollars that do not begin at a piece are found behind it. -/
theorem infix_render_cons {piece : Piece} (hclean : Clean (piece :: pieces))
    (heat : eatDollars (n + 1) (piece :: pieces) = none) :
    List.replicate (n + 1) '$' <:+: render (piece :: pieces) ↔
      List.replicate (n + 1) '$' <:+: render pieces := by
  have hbegins := not_prefix_of_eatDollars heat
  rw [render_cons] at hbegins ⊢
  cases piece with
  | char c => exact List.infix_cons_iff.trans (or_iff_right hbegins)
  | ref other =>
    have hdollar : '$' ∉ braced other := by
      simpa [braced] using notMem_name (hclean.names other List.mem_cons_self) rfl
    refine (List.infix_cons_iff.trans (or_iff_right hbegins)).trans ?_
    rw [List.replicate_succ]
    exact infix_append_of_notMem hdollar _

theorem replaceDollars_zero (i : Text) (pieces : List Piece) :
    replaceDollars 0 i pieces = chars i ++ pieces := by
  cases pieces with
  | nil => exact (List.append_nil _).symm
  | cons piece pieces => rfl

/-- Dollars that are replaced are lost. -/
theorem replaceDollars_spec (hvalues : Values choice) (hclean : Clean pieces) (hi : IsValue i)
    (n : ℕ) :
    (¬ List.replicate n '$' <:+: render pieces → replaceDollars n i pieces = pieces) ∧
    (List.replicate n '$' <:+: render pieces → size (fill choice pieces) <
      size (fill choice (replaceDollars n i pieces))) := by
  cases n with
  | zero =>
    refine ⟨fun h => absurd List.nil_infix h, fun _ => ?_⟩
    rw [replaceDollars_zero, fill_append, fill_chars]
    exact size_lt_value hi _
  | succ n =>
    suffices hweight : (¬ List.replicate (n + 1) '$' <:+: render pieces →
        replaceDollars (n + 1) i pieces = pieces) ∧
        (List.replicate (n + 1) '$' <:+: render pieces → weight (fill choice pieces) <
          weight (fill choice (replaceDollars (n + 1) i pieces))) from
      ⟨hweight.1, fun h => size_lt_of_weight (hweight.2 h)⟩
    induction pieces with
    | nil => exact ⟨fun _ => rfl, fun h => nomatch List.infix_nil.mp h⟩
    | cons piece pieces ih =>
      obtain ⟨hnone, hsome⟩ := ih hclean.tail
      rw [replaceDollars]
      cases heat : eatDollars (n + 1) (piece :: pieces) with
      | some rest =>
        dsimp only
        refine ⟨fun h => absurd ?_ h, fun _ => ?_⟩
        · rw [render_eatDollars heat]
          exact (List.prefix_append _ _).isInfix
        · have hlost := weight_eatDollars hvalues hclean heat
          rw [fill_append, fill_chars, weight_append, weight_value hi]
          push_cast at hlost
          linarith
      | none =>
        dsimp only
        rw [infix_render_cons hclean heat, fill_cons, fill_cons piece, weight_append, weight_append]
        exact ⟨fun h => by rw [hnone h], fun h => by linarith [hsome h]⟩

/-! ### All replacements of a choice -/

/-- The name of the experiment with the values of a choice. -/
def nameFor (perl : Perl) (name : Text) : List (Text × Text) → Option Text
  | [] => some name
  | (pname, i) :: choice =>
    (perl.substitute pname i name).bind fun newname => nameFor perl newname choice

theorem lookup_eq_none (h : pname ∉ choice.map Prod.fst) : choice.lookup pname = none := by
  refine List.lookup_eq_none_iff.mpr fun entry hentry => ?_
  have hne : pname ≠ entry.1 := fun heq => h (heq ▸ List.mem_map_of_mem hentry)
  simpa using hne

/-- A replacement leaves what it should, or a name that the others do not make right any more. -/
theorem replace_right_or_lt {pieces' : List Piece} (hclean : Clean pieces)
    (hname : isName pname = true) (hi : IsValue i) (hvalues : Values choice)
    (hlookup : choice.lookup pname = none) (hreplace : perl.replace pname i pieces = some pieces') :
    (fill choice pieces' = fill ((pname, i) :: choice) pieces ∧
      (Replaced perl pieces' choice → Replaced perl pieces ((pname, i) :: choice))) ∨
    size (fill ((pname, i) :: choice) pieces) < size (fill choice pieces') := by
  rw [Perl.replace] at hreplace
  by_cases hnumber : isNumber pname = true
  · rw [if_pos hnumber] at hreplace
    obtain ⟨n, hn, rfl⟩ := Option.map_eq_some_iff.mp hreplace
    obtain ⟨hnone, hsome⟩ := replaceDollars_spec hvalues hclean hi n
    by_cases hmem : .ref pname ∈ pieces
    · have hleft := size_fill_cons hclean hname hi hlookup hmem
      by_cases hinside : List.replicate n '$' <:+: render pieces
      · exact Or.inr (hleft.trans (hsome hinside))
      · exact Or.inr (by rwa [hnone hinside])
    · rw [fill_cons_of_notMem hmem]
      by_cases hinside : List.replicate n '$' <:+: render pieces
      · exact Or.inr (hsome hinside)
      · rw [hnone hinside]
        refine Or.inl ⟨rfl, fun h => ?_⟩
        rw [Replaced, if_pos hnumber]
        exact ⟨hmem, ⟨n, hn, hinside⟩, h⟩
  · rw [if_neg hnumber] at hreplace
    obtain rfl := Option.some.inj hreplace
    obtain ⟨hone, hmany⟩ := fill_replaceRef hclean hname hi hlookup
    rcases Nat.lt_or_ge 1 (pieces.count (.ref pname)) with hcount | hcount
    · exact Or.inr (size_lt_of_weight (hmany hcount))
    · refine Or.inl ⟨hone hcount, fun h => ?_⟩
      rw [Replaced, if_neg hnumber]
      exact ⟨hcount, h⟩

theorem Clean.replace {pieces' : List Piece} (h : Clean pieces) (hi : IsValue i)
    (hreplace : perl.replace pname i pieces = some pieces') : Clean pieces' := by
  rw [Perl.replace] at hreplace
  split_ifs at hreplace
  · obtain ⟨n, -, rfl⟩ := Option.map_eq_some_iff.mp hreplace
    exact (h.replaceDollars hi n).1
  · obtain rfl := Option.some.inj hreplace
    exact (h.replaceRef hi pname).1

/-- The name that comes out is the one that is filled in only if every replacement is right. -/
theorem replaced_of_nameFor (hclean : Clean pieces) (hvalues : Values choice)
    (hdistinct : (choice.map Prod.fst).Nodup)
    (hfinal : nameFor perl (render pieces) choice = some name) :
    (name = fill choice pieces ∧ Replaced perl pieces choice) ∨
      size (fill choice pieces) < size name := by
  induction choice generalizing pieces with
  | nil =>
    obtain rfl := Option.some.inj hfinal
    exact Or.inl ⟨(fill_nil pieces).symm, trivial⟩
  | cons entry choice ih =>
    obtain ⟨pname, i⟩ := entry
    obtain ⟨hname, hi⟩ := hvalues _ List.mem_cons_self
    have hvalues' : Values choice := fun other hother =>
      hvalues other (List.mem_cons_of_mem _ hother)
    rw [List.map_cons, List.nodup_cons] at hdistinct
    rw [nameFor, substitute_render hclean hname] at hfinal
    obtain ⟨newname, hnewname, hfinal⟩ := Option.bind_eq_some_iff.mp hfinal
    obtain ⟨pieces', hreplace, rfl⟩ := Option.map_eq_some_iff.mp hnewname
    have hstep := replace_right_or_lt hclean hname hi hvalues' (lookup_eq_none hdistinct.1) hreplace
    rcases ih (hclean.replace hi hreplace) hvalues' hdistinct.2 hfinal with ⟨rfl, hright⟩ | hlt
    · exact hstep.imp (fun h => ⟨h.1, h.2 hright⟩) id
    · exact Or.inr (hstep.elim (fun h => h.1 ▸ hlt) fun h => h.trans hlt)

theorem mem_replaceRef (i : Text) : (.ref other ∈ replaceRef pname i pieces → .ref other ∈ pieces) ∧
    (pieces.count (.ref pname) ≤ 1 → .ref pname ∉ replaceRef pname i pieces) := by
  have hchars : ∀ q, .ref q ∉ chars i := fun q hmem => by
    obtain ⟨c, -, heq⟩ := List.mem_map.mp hmem
    cases heq
  induction pieces with
  | nil => exact ⟨id, fun _ => List.not_mem_nil⟩
  | cons piece pieces ih =>
    rw [List.count_cons]
    cases piece with
    | char c =>
      rw [replaceRef]
      simpa using ih
    | ref q =>
      rw [replaceRef]
      by_cases hsame : q = pname
      · subst hsame
        rw [if_pos rfl, beq_self_eq_true, if_pos rfl]
        refine ⟨fun h => ?_, fun h hmem => ?_⟩
        · exact List.mem_cons_of_mem _ ((List.mem_append.mp h).resolve_left (hchars other))
        · have hpos := List.count_pos_iff.mpr ((List.mem_append.mp hmem).resolve_left (hchars q))
          omega
      · rw [if_neg hsame, if_neg (by simpa using hsame), Nat.add_zero]
        refine ⟨fun h => ?_, fun h hmem => ?_⟩
        · rcases List.mem_cons.mp h with heq | h
          · exact heq ▸ List.mem_cons_self
          · exact List.mem_cons_of_mem _ (ih.1 h)
        · rcases List.mem_cons.mp hmem with heq | hmem
          · exact hsame (Piece.ref.inj heq).symm
          · exact ih.2 h hmem

/-- Right replacements fill in the values, and no reference to their parameters is left. -/
theorem nameFor_of_replaced (hclean : Clean pieces) (hvalues : Values choice)
    (hdistinct : (choice.map Prod.fst).Nodup) (h : Replaced perl pieces choice) :
    ∃ pieces', nameFor perl (render pieces) choice = some (render pieces') ∧
      render pieces' = fill choice pieces ∧ Clean pieces' ∧
      ∀ other, .ref other ∈ pieces' → .ref other ∈ pieces ∧ other ∉ choice.map Prod.fst := by
  induction choice generalizing pieces with
  | nil =>
    exact ⟨pieces, rfl, (fill_nil pieces).symm, hclean, fun _ hmem => ⟨hmem, List.not_mem_nil⟩⟩
  | cons entry choice ih =>
    obtain ⟨pname, i⟩ := entry
    obtain ⟨hname, hi⟩ := hvalues _ List.mem_cons_self
    have hvalues' : Values choice := fun other hother =>
      hvalues other (List.mem_cons_of_mem _ hother)
    rw [List.map_cons, List.nodup_cons] at hdistinct
    rw [nameFor, substitute_render hclean hname, List.map_cons]
    rw [Replaced] at h
    split_ifs at h with hnumber
    · obtain ⟨hmem, ⟨n, hn, hinside⟩, h⟩ := h
      have hsame := (replaceDollars_spec hvalues' hclean hi n).1 hinside
      obtain ⟨pieces', hfinal, hfill, hclean', hrefs⟩ := ih hclean hvalues' hdistinct.2 h
      refine ⟨pieces', ?_, ?_, hclean', fun other hother => ?_⟩
      · rw [Perl.replace, if_pos hnumber, hn, Option.map_some, Option.map_some, Option.bind_some,
          hsame, hfinal]
      · rw [hfill, fill_cons_of_notMem hmem]
      · obtain ⟨hpieces, hkeys⟩ := hrefs other hother
        have hne : other ≠ pname := by
          rintro rfl
          exact hmem hpieces
        exact ⟨hpieces, List.not_mem_cons_of_ne_of_not_mem hne hkeys⟩
    · obtain ⟨hcount, h⟩ := h
      obtain ⟨pieces', hfinal, hfill, hclean', hrefs⟩ :=
        ih (hclean.replaceRef hi pname).1 hvalues' hdistinct.2 h
      refine ⟨pieces', ?_, ?_, hclean', fun other hother => ?_⟩
      · rw [Perl.replace, if_neg hnumber, Option.map_some, Option.bind_some, hfinal]
      · rw [hfill, (fill_replaceRef hclean hname hi (lookup_eq_none hdistinct.1)).1 hcount]
      · obtain ⟨hpieces, hkeys⟩ := hrefs other hother
        have hne : other ≠ pname := by
          rintro rfl
          exact (@mem_replaceRef pieces other other i).2 hcount hpieces
        exact ⟨(mem_replaceRef i).1 hpieces, List.not_mem_cons_of_ne_of_not_mem hne hkeys⟩

/-- A clean name without references is not taken for an unsubstituted one. -/
theorem isUnsubstituted_render (hclean : Clean pieces) (h : ∀ other, .ref other ∉ pieces) :
    isUnsubstituted (render pieces) = false := by
  have hbegins : ∀ rest, rest <:+ render pieces → ¬ ['$', '\x7b'] <+: rest := by
    induction pieces with
    | nil =>
      intro rest hsuffix hstart
      rw [List.suffix_nil.mp hsuffix] at hstart
      cases List.prefix_nil.mp hstart
    | cons piece pieces ih =>
      cases piece with
      | ref other => exact absurd List.mem_cons_self (h other)
      | char c =>
        intro rest hsuffix hstart
        rw [render_cons] at hsuffix
        rcases List.suffix_cons_iff.mp hsuffix with rfl | hsuffix
        · obtain ⟨rfl, hbrace⟩ := List.cons_prefix_cons.mp hstart
          exact hclean.not_brace hbrace
        · exact ih hclean.tail (fun other hmem => h other (List.mem_cons_of_mem _ hmem))
            rest hsuffix hstart
  refine List.any_eq_false.mpr fun rest hrest => ?_
  have hno := hbegins rest ((List.mem_tails _ _).mp hrest)
  rw [Bool.and_eq_true, List.isPrefixOf_iff_prefix]
  exact fun hboth => hno hboth.1

/-! ### All choices -/

theorem natural_value (n : ℕ) : IsValue (Nat.toDigits 10 n) := by
  have hdigit : ∀ c, c.isDigit = false → c ∉ Nat.toDigits 10 n := fun c hc hmem => by
    rw [Nat.isDigit_of_mem_toDigits (by decide) (by decide) hmem] at hc
    cases hc
  exact ⟨Nat.toDigits_ne_nil, hdigit _ rfl, hdigit _ rfl, hdigit _ rfl⟩

theorem decimal_value (n : ℤ) : IsValue (decimal n) := by
  cases n with
  | ofNat n =>
    have hdecimal : decimal (.ofNat n) = Nat.toDigits 10 n := Nat.toList_repr
    exact hdecimal ▸ natural_value n
  | negSucc n =>
    have hdecimal : decimal (.negSucc n) = '-' :: Nat.toDigits 10 (n + 1) := by
      rw [← Nat.toList_repr]
      exact String.toList_append
    obtain ⟨-, hdollar, hopen, hclose⟩ := natural_value (n + 1)
    rw [hdecimal]
    refine ⟨List.cons_ne_nil _ _, ?_, ?_, ?_⟩ <;> simp [*]

theorem integer_value {n : ℤ} (h : integerOf text = some n) : IsValue text := by
  refine ⟨?_, notMem_integer h rfl (by decide), notMem_integer h rfl (by decide),
    notMem_integer h rfl (by decide)⟩
  rintro rfl
  cases h

theorem Choices.Valid.value {choices : Choices} (h : choices.Valid) (hi : i ∈ choices.values) :
    IsValue i := by
  cases choices with
  | list values =>
    obtain ⟨hne, hall⟩ := h i hi
    have hchar : ∀ c, Choices.isValueChar c = false → c ∉ i := fun c hc hmem => by
      rw [List.all_eq_true.mp hall c hmem] at hc
      cases hc
    exact ⟨hne, hchar _ rfl, hchar _ rfl, hchar _ rfl⟩
  | range first last inc =>
    obtain ⟨n, m, k, hfirst, hlast, hinc, -⟩ := h
    simp only [Choices.values, hfirst, hlast, hinc] at hi
    split at hi
    · cases hi
    · rcases List.mem_cons.mp hi with rfl | hi
      · exact integer_value hfirst
      · obtain ⟨j, -, rfl⟩ := List.mem_map.mp hi
        exact decimal_value _

variable {tokens : List Token} {line model : Text} {out : List Text}

theorem assignments_spec (hvalid : ∀ token ∈ tokens, token.Valid)
    (hchoice : choice ∈ assignments tokens) :
    choice.map Prod.fst = tokens.filterMap Token.pname ∧ Values choice := by
  induction tokens generalizing choice with
  | nil =>
    obtain rfl := List.mem_singleton.mp hchoice
    exact ⟨rfl, fun _ h => nomatch h⟩
  | cons token tokens ih =>
    have hrest : ∀ token ∈ tokens, token.Valid := fun other hother =>
      hvalid other (List.mem_cons_of_mem token hother)
    cases token with
    | plain text => exact ih hrest hchoice
    | ranged pname choices =>
      obtain ⟨i, hi, hchoice⟩ := List.mem_flatMap.mp hchoice
      obtain ⟨behind, hbehind, rfl⟩ := List.mem_map.mp hchoice
      obtain ⟨hkeys, hvalues⟩ := ih hrest hbehind
      obtain ⟨hname, hchoices⟩ := hvalid _ List.mem_cons_self
      exact ⟨congrArg (pname :: ·) hkeys,
        List.forall_mem_cons.mpr ⟨⟨hname, hchoices.value hi⟩, hvalues⟩⟩

/-- The parameters of an experiment. -/
def paramsFor (choice : List (Text × Text)) (tokens : List Token) : Text :=
  tokens.flatMap fun token => ' ' :: token.chosen choice

theorem paramsFor_cons (h : pname ∉ tokens.filterMap Token.pname) :
    paramsFor ((pname, i) :: choice) tokens = paramsFor choice tokens := by
  refine List.flatMap_congr fun token htoken => ?_
  cases token with
  | plain text => rfl
  | ranged other choices =>
    have hne : other ≠ pname := fun heq =>
      h (List.mem_filterMap.mpr ⟨_, htoken, congrArg some heq⟩)
    simp only [Token.chosen, List.lookup_cons, beq_false_of_ne hne]

theorem mapM_eq_some_iff {α β : Type} {f : α → Option β} {l : List α} {r : List β} (b : β) :
    l.mapM f = some r ↔ (∀ a ∈ l, (f a).isSome) ∧ r = l.map fun a => (f a).getD b := by
  induction l generalizing r with
  | nil => exact ⟨fun h => ⟨fun _ ha => (nomatch ha), (Option.some.inj h).symm⟩, fun h => h.2 ▸ rfl⟩
  | cons a l ih =>
    rw [List.mapM_cons, List.forall_mem_cons]
    constructor
    · intro h
      obtain ⟨b', hb, h⟩ := Option.bind_eq_some_iff.mp h
      obtain ⟨r', hr, h⟩ := Option.bind_eq_some_iff.mp h
      obtain rfl := Option.some.inj h
      obtain ⟨hsome, rfl⟩ := ih.mp hr
      rw [List.map_cons, hb, Option.getD_some]
      exact ⟨⟨rfl, hsome⟩, rfl⟩
    · rintro ⟨⟨ha, hsome⟩, rfl⟩
      obtain ⟨b', hb⟩ := Option.isSome_iff_exists.mp ha
      rw [List.map_cons, hb, ih.mpr ⟨hsome, rfl⟩]
      rfl

theorem substitute_isSome (hname : isName pname = true)
    (h : isNumber pname = true → (perl.quantifier pname).isSome) (i name : Text) :
    (perl.substitute pname i name).isSome := by
  by_cases hnumber : isNumber pname = true
  · rw [perl.substitute_number pname i name hnumber, Option.isSome_map]
    exact h hnumber
  · rw [perl.substitute_name pname i name hname (Bool.not_eq_true _ ▸ hnumber)]
    rfl

/-- The line has experiments if all replacements can be made and leave no unsubstituted name. -/
theorem expand_eq_some_iff (hvalid : ∀ token ∈ tokens, token.Valid)
    (hdistinct : (tokens.filterMap Token.pname).Nodup) :
    expand perl name line tokens = some out ↔ QuantifiersOk perl tokens ∧
      (∀ choice ∈ assignments tokens, ∃ final, nameFor perl name choice = some final ∧
        isUnsubstituted final = false) ∧
      out = (assignments tokens).map fun choice =>
        (nameFor perl name choice).getD [] ++ ' ' :: line ++ paramsFor choice tokens := by
  induction tokens generalizing name line out with
  | nil =>
    rw [expand, assignments]
    have hout : (nameFor perl name []).getD [] ++ ' ' :: line ++ paramsFor [] [] =
        name ++ ' ' :: line := List.append_nil _
    rw [List.map_singleton, hout]
    cases hunsubstituted : isUnsubstituted name with
    | true =>
      refine ⟨fun h => (by cases h), fun h => ?_⟩
      obtain ⟨final, hfinal, hnot⟩ := h.2.1 [] (List.mem_singleton_self [])
      rw [← Option.some.inj hfinal, hunsubstituted] at hnot
      cases hnot
    | false =>
      refine ⟨fun h => ⟨trivial, fun choice hchoice => ?_, (Option.some.inj h).symm⟩,
        fun h => congrArg some h.2.2.symm⟩
      obtain rfl := List.mem_singleton.mp hchoice
      exact ⟨name, rfl, hunsubstituted⟩
  | cons token tokens ih =>
    have hrest : ∀ token ∈ tokens, token.Valid := fun other hother =>
      hvalid other (List.mem_cons_of_mem token hother)
    cases token with
    | plain text =>
      rw [expand, ih hrest hdistinct, QuantifiersOk, assignments]
      simp [paramsFor, Token.chosen]
    | ranged pname choices =>
      obtain ⟨hfresh, hdistinct'⟩ := List.nodup_cons.mp
        (show (pname :: tokens.filterMap Token.pname).Nodup from hdistinct)
      obtain ⟨hname, -⟩ := hvalid _ List.mem_cons_self
      have hparams : ∀ (final i : Text) (choice : List (Text × Text)),
          final ++ ' ' :: (line ++ ' ' :: pname ++ '=' :: i) ++ paramsFor choice tokens =
            final ++ ' ' :: line ++
              paramsFor ((pname, i) :: choice) (.ranged pname choices :: tokens) := by
        intro final i choice
        rw [paramsFor, paramsFor, List.flatMap_cons, ← paramsFor, ← paramsFor,
          paramsFor_cons hfresh, Token.chosen, List.lookup_cons, beq_self_eq_true]
        simp
      -- what is expected of one value
      have hvalue : ∀ i newname o, perl.substitute pname i name = some newname →
          (expand perl newname (line ++ ' ' :: pname ++ '=' :: i) tokens = some o ↔
            QuantifiersOk perl tokens ∧ (∀ choice ∈ assignments tokens, ∃ final,
              nameFor perl name ((pname, i) :: choice) = some final ∧
                isUnsubstituted final = false) ∧
            o = (assignments tokens).map fun choice =>
              (nameFor perl name ((pname, i) :: choice)).getD [] ++ ' ' :: line ++
                paramsFor ((pname, i) :: choice) (.ranged pname choices :: tokens)) := by
        intro i newname o hnewname
        rw [ih hrest hdistinct']
        simp only [nameFor, hnewname, Option.bind_some, hparams]
      rw [expand, QuantifiersOk, assignments, List.map_flatMap]
      simp only [List.map_map, Function.comp_def]
      constructor
      · intro h
        obtain ⟨outs, houts, rfl⟩ := Option.map_eq_some_iff.mp h
        obtain ⟨hsome, rfl⟩ := (mapM_eq_some_iff []).mp houts
        have heach : ∀ i ∈ choices.values, ∃ newname o,
            perl.substitute pname i name = some newname ∧
            expand perl newname (line ++ ' ' :: pname ++ '=' :: i) tokens = some o := by
          intro i hi
          obtain ⟨o, ho⟩ := Option.isSome_iff_exists.mp (hsome i hi)
          obtain ⟨newname, hnewname, hexpand⟩ := Option.bind_eq_some_iff.mp ho
          exact ⟨newname, o, hnewname, hexpand⟩
        refine ⟨?_, fun choice hchoice => ?_, ?_⟩
        · by_cases hnil : choices.values = []
          · exact Or.inl hnil
          · obtain ⟨i, hi⟩ := List.exists_mem_of_ne_nil _ hnil
            obtain ⟨newname, o, hnewname, hexpand⟩ := heach i hi
            refine Or.inr ⟨fun hnumber => ?_, ((hvalue i newname o hnewname).mp hexpand).1⟩
            have hsubstitute := congrArg Option.isSome hnewname
            rw [perl.substitute_number pname i name hnumber, Option.isSome_map] at hsubstitute
            exact hsubstitute
        · obtain ⟨i, hi, hchoice⟩ := List.mem_flatMap.mp hchoice
          obtain ⟨behind, hbehind, rfl⟩ := List.mem_map.mp hchoice
          obtain ⟨newname, o, hnewname, hexpand⟩ := heach i hi
          exact ((hvalue i newname o hnewname).mp hexpand).2.1 behind hbehind
        · rw [← List.flatMap_def]
          refine List.flatMap_congr fun i hi => ?_
          obtain ⟨newname, o, hnewname, hexpand⟩ := heach i hi
          rw [hnewname, Option.bind_some, hexpand, Option.getD_some]
          exact ((hvalue i newname o hnewname).mp hexpand).2.2
      · rintro ⟨hquantifiers, hfinal, rfl⟩
        have heach : ∀ i ∈ choices.values, ((perl.substitute pname i name).bind fun newname =>
            expand perl newname (line ++ ' ' :: pname ++ '=' :: i) tokens) =
              some ((assignments tokens).map fun choice =>
                (nameFor perl name ((pname, i) :: choice)).getD [] ++ ' ' :: line ++
                  paramsFor ((pname, i) :: choice) (.ranged pname choices :: tokens)) := by
          intro i hi
          obtain ⟨hquantifier, hquantifiers⟩ :=
            hquantifiers.resolve_left (List.ne_nil_of_mem hi)
          obtain ⟨newname, hnewname⟩ := Option.isSome_iff_exists.mp
            (substitute_isSome hname hquantifier i name)
          rw [hnewname, Option.bind_some]
          refine (hvalue i newname _ hnewname).mpr ⟨hquantifiers, fun choice hchoice => ?_, rfl⟩
          exact hfinal _ (List.mem_flatMap.mpr ⟨i, hi, List.mem_map.mpr ⟨choice, hchoice, rfl⟩⟩)
        rw [(mapM_eq_some_iff []).mpr ⟨fun i hi => ?_, rfl⟩, Option.map_some, ← List.flatMap_def]
        · refine congrArg some (List.flatMap_congr fun i hi => ?_)
          rw [heach i hi, Option.getD_some]
        · rw [heach i hi]
          rfl

/-! ### Names that are no numbers -/

theorem count_replaceRef (hne : other ≠ pname) (i : Text) :
    (replaceRef pname i pieces).count (.ref other) = pieces.count (.ref other) := by
  induction pieces with
  | nil => rfl
  | cons piece pieces ih =>
    cases piece with
    | char c => simp [replaceRef, ih]
    | ref q =>
      rw [replaceRef]
      split_ifs with hsame
      · have hchars : (chars i).count (.ref other) = 0 :=
          List.count_eq_zero.mpr fun hmem => by
            obtain ⟨c, -, heq⟩ := List.mem_map.mp hmem
            cases heq
        rw [List.count_append, hchars, Nat.zero_add,
          List.count_cons_of_ne fun heq => hne (hsame ▸ (Piece.ref.inj heq).symm)]
      · rw [List.count_cons, List.count_cons, ih]

/-- If no parameter has a number for a name, each one may have one reference. -/
theorem replaced_iff (hnumber : ∀ entry ∈ choice, isNumber entry.1 = false)
    (hdistinct : (choice.map Prod.fst).Nodup) : Replaced perl pieces choice ↔
      ∀ pname ∈ choice.map Prod.fst, pieces.count (.ref pname) ≤ 1 := by
  induction choice generalizing pieces with
  | nil => exact iff_of_true trivial fun _ h => nomatch h
  | cons entry choice ih =>
    obtain ⟨pname, i⟩ := entry
    rw [List.map_cons, List.nodup_cons] at hdistinct
    obtain ⟨hname, hrest⟩ := List.forall_mem_cons.mp hnumber
    rw [Replaced, if_neg (by rw [hname]; decide), ih hrest hdistinct.2, List.map_cons,
      List.forall_mem_cons]
    refine and_congr_right fun _ => forall₂_congr fun other hother => ?_
    rw [count_replaceRef]
    rintro rfl
    exact hdistinct.1 hother

/-! ### The experiments of a line -/

variable {fronts : List (Text × Text)} {last : Text}

theorem exists_readExps_eq (perl : Perl) (h : RangedLine fronts last pieces model tokens) :
    ∃ bound, ∀ fuel, bound ≤ fuel → perl.readExps fuel (physicalLines fronts last) =
      expand perl (render pieces) model tokens := by
  obtain ⟨exp, hlines, hsplit⟩ := h.written.read
  obtain ⟨bound, hbound⟩ := @exists_exps_eq perl tokens h.valid
  refine ⟨bound, fun fuel hfuel => ?_⟩
  have hexp : perl.readExp fuel exp = expand perl (render pieces) model tokens := by
    rw [Perl.readExp, hsplit, Option.bind_some]
    exact hbound fuel hfuel (render pieces) model
  rw [Perl.readExps, hlines, List.mapM_cons, List.mapM_nil, hexp]
  cases expand perl (render pieces) model tokens with
  | none => rfl
  | some out => exact congrArg some (List.append_nil out)

/-- The experiments of a line are those of the cross product exactly if every choice replaces the
references of the name, one after the other, by its values. -/
theorem readExps_eq_experiments_iff (perl : Perl) (h : RangedLine fronts last pieces model tokens) :
    (∃ bound, ∀ fuel, bound ≤ fuel → perl.readExps fuel (physicalLines fronts last) =
      some (experiments pieces model tokens)) ↔
      QuantifiersOk perl tokens ∧
        ∀ choice ∈ assignments tokens, Replaced perl pieces choice := by
  obtain ⟨enough, henough⟩ := exists_readExps_eq perl h
  have hexpand : (∃ bound, ∀ fuel, bound ≤ fuel →
      perl.readExps fuel (physicalLines fronts last) = some (experiments pieces model tokens)) ↔
      expand perl (render pieces) model tokens = some (experiments pieces model tokens) := by
    constructor
    · rintro ⟨bound, hbound⟩
      rw [← henough _ (le_max_left enough bound), hbound _ (le_max_right enough bound)]
    · intro heq
      exact ⟨enough, fun fuel hfuel => (henough fuel hfuel).trans heq⟩
  rw [hexpand, expand_eq_some_iff h.valid h.distinct]
  refine and_congr_right fun _ => ?_
  constructor
  · rintro ⟨hfinal, hsame⟩ choice hchoice
    obtain ⟨hkeys, hvalues⟩ := assignments_spec h.valid hchoice
    obtain ⟨final, hname, -⟩ := hfinal choice hchoice
    have hexperiment := List.map_inj_left.mp hsame choice hchoice
    rw [hname, Option.getD_some, paramsFor] at hexperiment
    have hfill := List.append_cancel_right (List.append_cancel_right hexperiment)
    rcases replaced_of_nameFor h.clean hvalues (hkeys ▸ h.distinct) hname with ⟨-, hright⟩ | hlt
    · exact hright
    · exact absurd hlt (hfill ▸ lt_irrefl _)
  · intro hreplaced
    have hright : ∀ choice ∈ assignments tokens,
        nameFor perl (render pieces) choice = some (fill choice pieces) ∧
          isUnsubstituted (fill choice pieces) = false := by
      intro choice hchoice
      obtain ⟨hkeys, hvalues⟩ := assignments_spec h.valid hchoice
      obtain ⟨pieces', hfinal, hfill, hclean, hrefs⟩ := nameFor_of_replaced h.clean hvalues
        (hkeys ▸ h.distinct) (hreplaced choice hchoice)
      have hnone : ∀ other, .ref other ∉ pieces' := fun other hmem => by
        obtain ⟨hpieces, hkey⟩ := hrefs other hmem
        exact hkey (hkeys ▸ h.refers other hpieces)
      rw [← hfill]
      exact ⟨hfinal, isUnsubstituted_render hclean hnone⟩
    refine ⟨fun choice hchoice => ⟨_, hright choice hchoice⟩, ?_⟩
    refine List.map_congr_left fun choice hchoice => ?_
    rw [(hright choice hchoice).1, Option.getD_some, paramsFor]

theorem naturalOf_toDigits (n : ℕ) : naturalOf (Nat.toDigits 10 n) = some n := by
  have hdigits : (Nat.toDigits 10 n).all Char.isDigit = true :=
    List.all_eq_true.mpr fun c hc => Nat.isDigit_of_mem_toDigits (by decide) (by decide) hc
  rw [naturalOf, if_pos ⟨Nat.toDigits_ne_nil, hdigits⟩, Nat.ofDigitChars_ten_toDigits]

/-- A quantifier without zeros at its beginning. -/
def quantifierOf (pname : Text) : Option ℕ :=
  (naturalOf pname).bind fun n => if Nat.toDigits 10 n = pname then some n else none

/-- Perl as far as integers go, all of them exact. -/
def integerPerl : Perl where
  Number := ℤ
  number text := (integerOf text).getD 0
  numberText := decimal
  le m n := decide (m ≤ n)
  add m n := m + n
  int n := n
  number_spelled text n h _ := by rw [h, Option.getD_some]
  numberText_int _ _ := rfl
  le_int _ _ _ _ := rfl
  add_int _ _ _ _ _ := rfl
  substitute pname i name :=
    if isNumber pname then
      (quantifierOf pname).map fun n =>
        (substituteFirst (List.replicate n '$') i name).getD name
    else some ((substituteFirst (reference pname) i name).getD name)
  quantifier := quantifierOf
  quantifier_decimal n _ := by
    have hdecimal : decimal (n : ℤ) = Nat.toDigits 10 n := Nat.toList_repr
    rw [hdecimal, quantifierOf, naturalOf_toDigits, Option.bind_some, if_pos rfl]
  substitute_name pname i name _ h := if_neg (by rw [h]; decide)
  substitute_number pname i name h := if_pos h

/-- A second reference to a parameter is not replaced, and the program dies of it. -/
theorem not_experiments_twoReferences :
    RangedLine [] "n$\x7ba\x7d$\x7ba\x7d m a=[1,2]".toList
      [.char 'n', .ref ['a'], .ref ['a']] ['m'] [.ranged ['a'] (.list [['1'], ['2']])] ∧
    ¬ ∃ bound, ∀ fuel, bound ≤ fuel →
      integerPerl.readExps fuel
        (physicalLines [] "n$\x7ba\x7d$\x7ba\x7d m a=[1,2]".toList) =
      some (experiments [.char 'n', .ref ['a'], .ref ['a']] ['m']
        [.ranged ['a'] (.list [['1'], ['2']])]) := by
  have hline : RangedLine [] "n$\x7ba\x7d$\x7ba\x7d m a=[1,2]".toList
      [.char 'n', .ref ['a'], .ref ['a']] ['m'] [.ranged ['a'] (.list [['1'], ['2']])] := by
    refine ⟨⟨fun _ h => (nomatch h), by decide, by decide +kernel, ?_, ?_⟩, ⟨?_, by decide⟩, ?_,
      by decide, ?_⟩
    · exact ⟨'n', _, [], rfl, by decide, by decide, by decide⟩
    · exact ⟨"a=[1,2".toList, ']', rfl, by decide, by decide⟩
    · intro pname hmem
      obtain rfl : pname = ['a'] := by simpa using hmem
      rfl
    · intro pname hmem
      obtain rfl : pname = ['a'] := by simpa using hmem
      exact List.mem_singleton_self _
    · intro token htoken
      obtain rfl := List.mem_singleton.mp htoken
      have hvalues : ∀ value ∈ [['1'], ['2']],
          value ≠ [] ∧ value.all Choices.isValueChar = true := by decide
      exact ⟨rfl, hvalues⟩
  refine ⟨hline, ?_⟩
  rintro ⟨bound, hbound⟩
  obtain ⟨enough, henough⟩ := exists_readExps_eq integerPerl hline
  have heq := (henough _ (le_max_left enough bound)).symm.trans
    (hbound _ (le_max_right enough bound))
  have hnone : expand integerPerl (render [.char 'n', .ref ['a'], .ref ['a']]) ['m']
      [.ranged ['a'] (.list [['1'], ['2']])] = none := by decide +kernel
  rw [hnone] at heq
  cases heq

/-- Two parameters with a value each time, in a line that is continued. -/
theorem readExps_twoRanges : ∃ bound, ∀ fuel, bound ≤ fuel →
    integerPerl.readExps fuel
      (physicalLines [("n$\x7ba\x7d_$\x7bb\x7d m a=[x,y] ".toList, [])] " b=[1;4;2]".toList) =
      some (experiments [.char 'n', .ref ['a'], .char '_', .ref ['b']] ['m']
        [.ranged ['a'] (.list [['x'], ['y']]), .ranged ['b'] (.range ['1'] ['4'] ['2'])]) := by
  have hline : RangedLine [("n$\x7ba\x7d_$\x7bb\x7d m a=[x,y] ".toList, [])] " b=[1;4;2]".toList
      [.char 'n', .ref ['a'], .char '_', .ref ['b']] ['m']
      [.ranged ['a'] (.list [['x'], ['y']]), .ranged ['b'] (.range ['1'] ['4'] ['2'])] := by
    refine ⟨⟨?_, by decide, by decide +kernel, ?_, ?_⟩, ⟨?_, by decide⟩, ?_, by decide, ?_⟩
    · intro front hfront
      obtain rfl := List.mem_singleton.mp hfront
      exact fun c hc => nomatch hc
    · exact ⟨'n', _, _, rfl, by decide, by decide, by decide⟩
    · exact ⟨"b=[1;4;2".toList, ']', rfl, by decide, by decide⟩
    · intro pname hmem
      obtain rfl | rfl : pname = ['a'] ∨ pname = ['b'] := by simpa using hmem
      · rfl
      · rfl
    · intro pname hmem
      obtain rfl | rfl : pname = ['a'] ∨ pname = ['b'] := by simpa using hmem
      · exact List.mem_cons_self
      · exact List.mem_cons_of_mem _ List.mem_cons_self
    · intro token htoken
      obtain rfl | rfl : token = .ranged ['a'] (.list [['x'], ['y']]) ∨
          token = .ranged ['b'] (.range ['1'] ['4'] ['2']) := by simpa using htoken
      · have hvalues : ∀ value ∈ [['x'], ['y']],
            value ≠ [] ∧ value.all Choices.isValueChar = true := by decide
        exact ⟨rfl, hvalues⟩
      · refine ⟨rfl, 1, 4, 2, by decide, by decide, by decide, by decide, ?_, ?_, ?_, ?_⟩ <;>
        · unfold Fits
          norm_num
  refine (readExps_eq_experiments_iff integerPerl hline).mpr ⟨?_, fun choice hchoice => ?_⟩
  · have hname : ∀ pname ∈ [['a'], ['b']], isNumber pname ≠ true := by decide
    exact Or.inr ⟨fun h => absurd h (hname _ (by decide)),
      Or.inr ⟨fun h => absurd h (hname _ (by decide)), trivial⟩⟩
  · have hchoices : ∀ choice ∈ assignments [.ranged ['a'] (.list [['x'], ['y']]),
        .ranged ['b'] (.range ['1'] ['4'] ['2'])], choice.map Prod.fst = [['a'], ['b']] ∧
          ∀ entry ∈ choice, isNumber entry.1 = false := by decide +kernel
    obtain ⟨hkeys, hnumber⟩ := hchoices choice hchoice
    refine (replaced_iff hnumber (by rw [hkeys]; decide)).mpr ?_
    rw [hkeys]
    decide

end Awb.Run.Experiments
