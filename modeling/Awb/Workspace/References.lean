import Awb.Workspace.ExpandPath

/-! How both readers of a search path split strings and substitute variables: Perl drops empty parts
at the end, and the loops over references to variables give the same text. -/

namespace Awb

/-! ### Splitting at commas -/

variable {separator : Char} {s : Text}

/-- A string is split in the same way unless an empty part is at its end. -/
def SplitsAlike (separator : Char) (s : Text) : Prop := s = [] ∨ s.getLast? ≠ some separator

/-- The last part of a string. -/
theorem splitOn_last (h : separator ∈ s) : ∃ front back, s = front ++ separator :: back ∧
    separator ∉ back ∧ s.splitOn separator = front.splitOn separator ++ [back] := by
  obtain ⟨back, front, hreverse, hback⟩ := List.eq_append_cons_of_mem (List.mem_reverse.mpr h)
  have hs : s = front.reverse ++ separator :: back.reverse := by
    have hrr := congrArg List.reverse hreverse
    simpa using hrr
  have hback' : separator ∉ back.reverse := fun hmem => hback (List.mem_reverse.mp hmem)
  refine ⟨front.reverse, back.reverse, hs, hback', ?_⟩
  rw [hs, List.splitOn_append_cons_self, List.splitOn_eq_singleton hback']

theorem getLast?_splitOn (separator : Char) (hs : s ≠ []) :
    (s.splitOn separator).getLast? = some [] ↔ s.getLast? = some separator := by
  by_cases hmem : separator ∈ s
  · obtain ⟨front, back, rfl, hback, hsplit⟩ := splitOn_last hmem
    rw [hsplit, List.getLast?_concat, Option.some_inj, List.getLast?_append]
    constructor
    · rintro rfl
      rfl
    · intro h
      cases hlast : back.getLast? with
      | none => exact List.getLast?_eq_none_iff.mp hlast
      | some c =>
        have hc : (separator :: back).getLast? = some c := by
          rw [List.getLast?_cons, hlast]
          rfl
        rw [hc] at h
        obtain rfl : c = separator := Option.some.inj h
        exact absurd (List.mem_of_getLast? hlast) hback
  · rw [List.splitOn_eq_singleton hmem]
    constructor
    · intro h
      exact absurd (Option.some.inj h) hs
    · intro h
      exact absurd (List.mem_of_getLast? h) hmem

theorem splitOnP_singleton : s.splitOnP (· ∈ [separator]) = s.splitOn separator := by
  have hp : (fun c => decide (c ∈ [separator])) = fun c => c == separator := by
    funext c
    rw [Bool.eq_iff_iff, decide_eq_true_iff, List.mem_singleton, beq_iff_eq]
  rw [List.splitOn_eq_splitOnP, hp]

/-- `SplitString` does not split an empty string, nor a single separator in two. -/
theorem splitString_eq (hs : s ≠ []) (hsingle : s ≠ [separator]) :
    splitString [separator] s = s.splitOn separator := by
  unfold splitString
  split
  · exact absurd rfl hs
  · rename_i c
    have hc : c ∉ [separator] := fun hmem => hsingle (congrArg (fun c => [c])
      (List.mem_singleton.mp hmem))
    have hsep : separator ∉ [c] := fun hmem => hc (List.mem_singleton.mpr
      (List.mem_singleton.mp hmem).symm)
    rw [if_neg hc, List.splitOn_eq_singleton hsep]
  · exact splitOnP_singleton

theorem perlSplit_separator : perlSplit separator [separator] = [] := by
  have hsplit : [separator].splitOn separator = [[], []] := by
    rw [List.splitOn_cons_eq_if_modifyHead, if_pos (beq_self_eq_true separator), List.splitOn_nil]
  rw [perlSplit, hsplit]
  rfl

/-- What Perl keeps is where C++ begins. -/
theorem perlSplit_prefix : perlSplit separator s <+: splitString [separator] s := by
  by_cases hs : s = []
  · subst hs
    exact List.prefix_refl []
  · by_cases hsingle : s = [separator]
    · rw [hsingle, perlSplit_separator]
      exact List.nil_prefix
    · rw [splitString_eq hs hsingle]
      exact List.rdropWhile_prefix List.isEmpty _

theorem perlSplit_eq_iff :
    perlSplit separator s = splitString [separator] s ↔ SplitsAlike separator s := by
  unfold SplitsAlike
  by_cases hs : s = []
  · subst hs
    simp only [true_or, iff_true]
    rfl
  · by_cases hsingle : s = [separator]
    · subst hsingle
      have hstring : splitString [separator] [separator] = [[]] :=
        if_pos (List.mem_singleton_self separator)
      rw [perlSplit_separator, hstring]
      simp
    · have hne := List.splitOn_ne_nil separator s
      have hlast := getLast?_splitOn separator hs
      rw [List.getLast?_eq_some_getLast hne, Option.some_inj] at hlast
      have hself : perlSplit separator s = s.splitOn separator ↔
          (s.splitOn separator).getLast hne ≠ [] := by
        rw [perlSplit, List.rdropWhile_eq_self_iff]
        constructor
        · intro h
          exact fun hempty => h hne (List.isEmpty_iff.mpr hempty)
        · intro h _ hempty
          exact h (List.isEmpty_iff.mp hempty)
      rw [splitString_eq hs hsingle, hself, ne_eq, hlast]
      simp only [hs, false_or]

/-! ### References -/

/-- An element before its variables are substituted: plain text and references. -/
inductive Piece
  | text (s : Text)
  | ref (name : Text)

namespace Piece

def raw : Piece → Text
  | text s => s
  | ref name => '$' :: '(' :: name ++ [')']

def value (w : WorkspaceConfig) : Piece → Text
  | text s => s
  | ref name => (w.vars name).getD []

/-- There is no `$` in plain text, and a reference is to a variable whose value has none. -/
def Ok (w : WorkspaceConfig) : Piece → Prop
  | text s => '$' ∉ s
  | ref name => name ≠ [] ∧ (∀ c ∈ name, isWordChar c = true) ∧
      ∃ value, w.vars name = some value ∧ '$' ∉ value

end Piece

variable {w : WorkspaceConfig} {refAt : Text → Option (Text × Text)}

theorem leftmostRef_none (hs : '$' ∉ s) : leftmostRef refAt s = none := by
  induction s with
  | nil => rfl
  | cons c cs ih =>
    obtain ⟨hc, hcs⟩ := List.ne_and_not_mem_of_not_mem_cons hs
    rw [leftmostRef, if_neg hc.symm, ih hcs]
    rfl

theorem leftmostRef_append {name : Text} (after : Text) (hs : '$' ∉ s)
    (href : ∀ cs, refAt ('(' :: name ++ ')' :: cs) = some (name, cs)) :
    leftmostRef refAt (s ++ '$' :: '(' :: name ++ ')' :: after) = some (s, name, after) := by
  induction s with
  | nil =>
    have hafter := href after
    simp only [List.nil_append, List.cons_append] at hafter ⊢
    rw [leftmostRef, if_pos rfl, hafter]
  | cons c cs ih =>
    obtain ⟨hc, hcs⟩ := List.ne_and_not_mem_of_not_mem_cons hs
    have hih := ih hcs
    simp only [List.cons_append] at hih ⊢
    rw [leftmostRef, if_neg hc.symm, hih]
    rfl

theorem takeWhile_word {p : Char → Bool} {name : Text} {c : Char} (after : Text)
    (hname : ∀ d ∈ name, p d = true) (hc : p c = false) :
    (name ++ c :: after).takeWhile p = name ∧
      (name ++ c :: after).drop name.length = c :: after := by
  have hneg : ¬ p c = true := by simp [hc]
  refine ⟨?_, List.drop_left⟩
  rw [List.takeWhile_append_of_pos hname, List.takeWhile_cons_of_neg hneg, List.append_nil]

/-- Both patterns match a reference to a word. -/
theorem varMatch_word {name cs : Text} (hne : name ≠ [])
    (hname : ∀ c ∈ name, isWordChar c = true) :
    varMatch ('(' :: name ++ ')' :: cs) = some (name, cs) := by
  have hopen : ∀ c ∈ name, (!(decide (c = '}') || decide (c = ')'))) = true := by
    intro c hc
    have hword := hname c hc
    have hbrace : c ≠ '}' := by
      rintro rfl
      cases hword
    have hparen : c ≠ ')' := by
      rintro rfl
      cases hword
    simp [hbrace, hparen]
  obtain ⟨htake, hdrop⟩ := takeWhile_word (c := ')') cs hopen (by decide)
  obtain ⟨d, ds, rfl⟩ := List.exists_cons_of_ne_nil hne
  simp only [List.cons_append] at htake hdrop ⊢
  rw [varMatch, refName, htake, hdrop]

theorem perlRef_word {name cs : Text} (hname : ∀ c ∈ name, isWordChar c = true) :
    perlRef ('(' :: name ++ ')' :: cs) = some (name, cs) := by
  obtain ⟨htake, hdrop⟩ := takeWhile_word (c := ')') cs hname (by decide)
  simp only [List.cons_append] at htake hdrop ⊢
  rw [perlRef, htake, hdrop]
  rfl

/-! ### Substitution -/

/-- The text of an element, and the text with the values of its variables. -/
def rawOf (pieces : List Piece) : Text := pieces.flatMap Piece.raw

def valueOf (w : WorkspaceConfig) (pieces : List Piece) : Text := pieces.flatMap (Piece.value w)

theorem Piece.Ok.value {piece : Piece} (h : piece.Ok w) : '$' ∉ piece.value w := by
  cases piece with
  | text s => exact h
  | ref name =>
    obtain ⟨-, -, value, hvalue, hdollar⟩ := h
    rw [Piece.value, hvalue]
    exact hdollar

/-- A loop that replaces the leftmost reference gives the text with all values. -/
theorem loop_pieces (refAt : Text → Option (Text × Text)) {loop : Nat → Text → Option Text}
    (hstop : ∀ fuel s, leftmostRef refAt s = none → loop (fuel + 1) s = some s)
    (hstep : ∀ fuel s before name after value, leftmostRef refAt s = some (before, name, after) →
      w.vars name = some value → loop (fuel + 1) s = loop fuel (before ++ value ++ after))
    (href : ∀ name cs, name ≠ [] → (∀ c ∈ name, isWordChar c = true) →
      refAt ('(' :: name ++ ')' :: cs) = some (name, cs))
    {pieces : List Piece} (hok : ∀ piece ∈ pieces, piece.Ok w) {front : Text}
    (hfront : '$' ∉ front) {fuel : Nat} (hfuel : pieces.length < fuel) :
    loop fuel (front ++ rawOf pieces) = some (front ++ valueOf w pieces) := by
  induction pieces generalizing front fuel with
  | nil =>
    obtain ⟨k, rfl⟩ : ∃ k, fuel = k + 1 := ⟨fuel - 1, by omega⟩
    have hnil : front ++ rawOf [] = front := List.append_nil front
    rw [hnil, hstop k front (leftmostRef_none hfront)]
    exact congrArg some (List.append_nil front).symm
  | cons piece pieces ih =>
    have hpiece := hok piece List.mem_cons_self
    have hrest : ∀ piece ∈ pieces, piece.Ok w := fun p hp => hok p (List.mem_cons_of_mem _ hp)
    have hraw : rawOf (piece :: pieces) = piece.raw ++ rawOf pieces := rfl
    have hvalue : valueOf w (piece :: pieces) = piece.value w ++ valueOf w pieces := rfl
    have hfront' : '$' ∉ front ++ piece.value w := by
      intro hmem
      exact (List.mem_append.mp hmem).elim hfront hpiece.value
    rw [hraw, hvalue]
    cases piece with
    | text t =>
      have hih := ih hrest hfront' (Nat.lt_of_succ_lt hfuel)
      rw [List.append_assoc, List.append_assoc] at hih
      exact hih
    | ref name =>
      obtain ⟨hne, hname, value, hvar, hdollar⟩ := hpiece
      obtain ⟨k, rfl⟩ : ∃ k, fuel = k + 1 := ⟨fuel - 1, by omega⟩
      have hleft : leftmostRef refAt (front ++ ((Piece.ref name).raw ++ rawOf pieces)) =
          some (front, name, rawOf pieces) := by
        have happend := leftmostRef_append (rawOf pieces) hfront
          fun cs => href name cs hne hname
        simpa [Piece.raw] using happend
      have hval : (Piece.ref name).value w = value := by
        rw [Piece.value, hvar, Option.getD_some]
      rw [hstep k _ front name (rawOf pieces) value hleft hvar]
      rw [hval] at hfront' ⊢
      have hih := ih hrest hfront' (Nat.lt_of_succ_lt_succ hfuel)
      rwa [List.append_assoc front value (valueOf w pieces)] at hih

theorem expandVars_pieces {pieces : List Piece} (hok : ∀ piece ∈ pieces, piece.Ok w) {fuel : Nat}
    (hfuel : pieces.length < fuel) :
    w.expandVars fuel (rawOf pieces) = some (valueOf w pieces) := by
  change w.expandVars fuel ([] ++ rawOf pieces) = some ([] ++ valueOf w pieces)
  refine loop_pieces varMatch ?_ ?_ ?_ hok List.not_mem_nil hfuel
  · intro fuel s hnone
    rw [WorkspaceConfig.expandVars, hnone]
  · intro fuel s before name after value hsome hvar
    have hconf : w.getConfVar name = value := by
      rw [WorkspaceConfig.getConfVar, hvar, Option.getD_some]
    rw [WorkspaceConfig.expandVars, hsome]
    exact congrArg (fun v => w.expandVars fuel (before ++ v ++ after)) hconf
  · exact fun name cs => varMatch_word

theorem substitute_pieces {pieces : List Piece} (hok : ∀ piece ∈ pieces, piece.Ok w) {fuel : Nat}
    (hfuel : pieces.length < fuel) :
    w.substitute fuel (rawOf pieces) = some (valueOf w pieces) := by
  change w.substitute fuel ([] ++ rawOf pieces) = some ([] ++ valueOf w pieces)
  refine loop_pieces perlRef ?_ ?_ ?_ hok List.not_mem_nil hfuel
  · intro fuel s hnone
    rw [WorkspaceConfig.substitute, hnone]
  · intro fuel s before name after value hsome hvar
    rw [WorkspaceConfig.substitute, hsome]
    simp only [hvar]
  · exact fun name cs _ => perlRef_word

end Awb
