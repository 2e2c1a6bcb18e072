import Awb.Util.MatchString

/-! The words of a text with blanks and tabs between them, and what is left of a text without the
characters of a class at its ends. -/

namespace Awb
open Inifile (isBlank)

/-- Without the characters of a class at both ends. -/
def trim (p : Char → Bool) (text : Text) : Text := (text.dropWhile p).rdropWhile p

def blankWords (text : Text) : List Text := (text.splitOnP isBlank).filter (· ≠ [])

variable {text front back : Text} {p q : Char → Bool} {c : Char}

theorem blankWords_append (hc : isBlank c = true) :
    blankWords (front ++ c :: back) = blankWords front ++ blankWords back := by
  rw [blankWords, List.splitOnP_append_cons front back hc, List.filter_append]
  rfl

theorem blankWords_cons (hc : isBlank c = true) : blankWords (c :: text) = blankWords text :=
  @blankWords_append [] text c hc

theorem blankWords_concat (hc : isBlank c = true) : blankWords (text ++ [c]) = blankWords text := by
  rw [blankWords_append hc]
  exact List.append_nil _

theorem blankWords_trim (text : Text) : blankWords (trim isBlank text) = blankWords text := by
  have hleft : blankWords (text.dropWhile isBlank) = blankWords text := by
    induction text with
    | nil => rfl
    | cons c text ih =>
      rw [List.dropWhile_cons]
      split
      next hc => rw [ih, blankWords_cons hc]
      next => rfl
  rw [← hleft, trim]
  induction text.dropWhile isBlank using List.reverseRecOn with
  | nil => rfl
  | append_singleton text c ih =>
    rw [List.rdropWhile_concat]
    split
    next hc => rw [ih, blankWords_concat hc]
    next => rfl

/-- No character of a word is a blank, and all others are in a word. -/
theorem flatten_blankWords (text : Text) :
    (blankWords text).flatten = text.filter (!isBlank ·) := by
  have hparts : (text.splitOnP isBlank).flatten = text.filter (!isBlank ·) := by
    induction text with
    | nil => rfl
    | cons c text ih =>
      rw [List.splitOnP_cons_eq_if_modifyHead]
      obtain ⟨part, parts, hparts⟩ :=
        List.exists_cons_of_ne_nil (@List.splitOnP_ne_nil _ isBlank text)
      rw [hparts] at ih ⊢
      split
      next hc => rw [List.filter_cons_of_neg (by simp [hc]), ← ih]; rfl
      next hc => rw [List.filter_cons_of_pos (by simp [hc]), ← ih]; rfl
  rw [← hparts, blankWords]
  induction text.splitOnP isBlank with
  | nil => rfl
  | cons part parts ih =>
    rw [List.filter_cons, List.flatten_cons]
    split
    next => rw [List.flatten_cons, ih]
    next hpart =>
      obtain rfl : part = [] := by simpa using hpart
      exact ih

theorem blankWords_eq_nil_iff : blankWords text = [] ↔ ∀ c ∈ text, isBlank c = true := by
  constructor
  · intro hnil
    have hflatten := flatten_blankWords text
    rw [hnil, List.flatten_nil, eq_comm, List.filter_eq_nil_iff] at hflatten
    exact fun c hc => by simpa using hflatten c hc
  · intro hall
    induction text with
    | nil => rfl
    | cons c text ih =>
      obtain ⟨hc, htext⟩ := List.forall_mem_cons.mp hall
      rw [blankWords_cons hc, ih htext]

/-- What is trimmed off is all of the class, and what is left begins and ends otherwise. -/
theorem trim_spec (p : Char → Bool) (text : Text) : ∃ front back,
    text = front ++ trim p text ++ back ∧ (∀ c ∈ front, p c = true) ∧ ∀ c ∈ back, p c = true := by
  refine ⟨text.takeWhile p, (text.dropWhile p).rtakeWhile p, ?_, fun c hc => ?_, fun c hc => ?_⟩
  · rw [List.append_assoc, trim, List.rdropWhile_append_rtakeWhile, List.takeWhile_append_dropWhile]
  · exact List.mem_takeWhile_imp hc
  · exact List.mem_rtakeWhile_imp hc

theorem head_trim (h : (trim p text).head? = some c) : p c = false := by
  obtain ⟨back, hback⟩ := List.rdropWhile_prefix p (text.dropWhile p)
  have hhead : (text.dropWhile p).head? = some c := by
    rw [← hback, List.head?_append]
    change ((trim p text).head?.or back.head?) = some c
    rw [h]
    rfl
  have hnot := List.head?_dropWhile_not p text
  rw [hhead] at hnot
  simpa using hnot

theorem getLast_trim (h : (trim p text).getLast? = some c) : p c = false := by
  have hne : (text.dropWhile p).rdropWhile p ≠ [] := by
    intro hnil
    rw [trim, hnil] at h
    cases h
  have hlast := List.rdropWhile_last_not p (text.dropWhile p) hne
  rw [trim, List.getLast?_eq_some_getLast hne, Option.some_inj] at h
  rw [h] at hlast
  exact Bool.eq_false_iff.mpr hlast

theorem trim_append (hfront : ∀ c ∈ front, p c = true) (hback : ∀ c ∈ back, p c = true)
    (hhead : ∀ c, text.head? = some c → p c = false)
    (hlast : ∀ c, text.getLast? = some c → p c = false) :
    trim p (front ++ text ++ back) = text := by
  have hright : (text ++ back).rdropWhile p = text := by
    have hrdrop : (text ++ back).rdropWhile p = text.rdropWhile p := by
      rw [List.rdropWhile, List.reverse_append,
        List.dropWhile_append_of_pos fun c hc => hback c (List.mem_reverse.mp hc)]
      rfl
    rw [hrdrop, List.rdropWhile_eq_self_iff]
    intro hne
    rw [Bool.not_eq_true]
    exact hlast _ (List.getLast?_eq_some_getLast hne)
  rw [trim, List.append_assoc, List.dropWhile_append_of_pos hfront]
  cases text with
  | nil =>
    rw [List.nil_append, List.dropWhile_eq_nil_iff.mpr hback]
    rfl
  | cons c text =>
    rw [List.cons_append, List.dropWhile_cons_of_neg (by simp [hhead c rfl])]
    exact hright

theorem isBlank_imp (hc : isBlank c = true) : inSpaceClass c = true := by
  rcases Bool.or_eq_true_iff.mp hc with hc | hc
  · rw [of_decide_eq_true hc]
    decide
  · rw [of_decide_eq_true hc]
    decide

/-- Without the white space at its ends a text keeps its words if that is blanks and tabs. -/
theorem blankWords_trim_iff (text : Text) :
    blankWords (trim inSpaceClass text) = blankWords text ↔
      trim inSpaceClass text = trim isBlank text := by
  refine ⟨fun heq => ?_, fun heq => by rw [heq, blankWords_trim]⟩
  obtain ⟨front, back, htext, -, -⟩ := trim_spec inSpaceClass text
  have hfilter := congrArg List.flatten heq
  rw [flatten_blankWords, flatten_blankWords] at hfilter
  have hlength := congrArg (List.length ∘ List.filter (!isBlank ·)) htext
  simp only [Function.comp_apply, List.filter_append, List.length_append, ← hfilter] at hlength
  have hfront : front.filter (!isBlank ·) = [] := List.eq_nil_of_length_eq_zero (by omega)
  have hback : back.filter (!isBlank ·) = [] := List.eq_nil_of_length_eq_zero (by omega)
  have hother {c : Char} (hc : inSpaceClass c = false) : isBlank c = false :=
    Bool.eq_false_iff.mpr fun hblank => Bool.false_ne_true (hc.symm.trans (isBlank_imp hblank))
  have htrim := @trim_append (trim inSpaceClass text) front back isBlank
    (fun c hc => by simpa using List.filter_eq_nil_iff.mp hfront c hc)
    (fun c hc => by simpa using List.filter_eq_nil_iff.mp hback c hc)
    (fun c hc => hother (head_trim hc)) fun c hc => hother (getLast_trim hc)
  rw [← htext] at htrim
  exact htrim.symm

/-- What is left holds all characters outside the class. -/
theorem length_filter_le_trim (text : Text) :
    (text.filter (!inSpaceClass ·)).length ≤ (trim inSpaceClass text).length := by
  obtain ⟨front, back, htext, hfront, hback⟩ := trim_spec inSpaceClass text
  have hnone {l : Text} (hl : ∀ c ∈ l, inSpaceClass c = true) : l.filter (!inSpaceClass ·) = [] :=
    List.filter_eq_nil_iff.mpr fun c hc => by simp [hl c hc]
  have hfilter := congrArg (List.filter (!inSpaceClass ·)) htext
  rw [List.filter_append, List.filter_append, hnone hfront, hnone hback, List.nil_append,
    List.append_nil] at hfilter
  rw [hfilter]
  exact List.length_filter_le _ _

theorem mem_of_mem_trim (h : c ∈ trim p text) :
    c ∈ text :=
  (List.dropWhile_suffix p).subset ((List.rdropWhile_prefix p _).subset h)

end Awb
