import Awb.Coverage.Files

/-! The table of parents: for each file the files that refer to it, in one string with commas. -/

namespace Awb.Coverage

/-- `%Child2Parent`; a child that is not in it has the empty string. -/
abbrev Child2Parent := Text → Text

def addChild (table : Child2Parent) (parent child : Text) : Child2Parent :=
  Function.update table child
    (if isTrue (table child) then table child ++ ',' :: parent else parent)

def getParents (table : Child2Parent) (child : Text) : List Text :=
  if isTrue (table child) then perlSplit ',' (table child) else []

/-- A parent that a string with commas can hold. -/
def Listable (parent : Text) : Prop := ',' ∉ parent ∧ isTrue parent

theorem Listable.ne_nil {parent : Text} (h : Listable parent) : parent ≠ [] := by
  rintro rfl
  exact absurd h.2 (by decide)

/-- The strings of a table list parents. -/
def Clean (table : Child2Parent) : Prop :=
  ∀ child, ∃ parents : List Text, (∀ p ∈ parents, Listable p) ∧
    table child = [','].intercalate parents

variable {table : Child2Parent} {parents : List Text} {p parent child c : Text}

theorem clean_nil : Clean fun _ => [] := fun _ => ⟨[], fun _ h => absurd h List.not_mem_nil, rfl⟩

theorem isTrue_intercalate (h : ∀ p ∈ parents, Listable p) (hne : parents ≠ []) :
    isTrue ([','].intercalate parents) := by
  cases parents with
  | nil => exact absurd rfl hne
  | cons p ps =>
    have hp := h p (List.mem_cons_self ..)
    cases ps with
    | nil =>
      rw [List.intercalate_singleton]
      exact hp.2
    | cons q qs =>
      have hmem : ',' ∈ [','].intercalate (p :: q :: qs) := by simp [List.intercalate_cons_cons]
      have hnil : [','].intercalate (p :: q :: qs) ≠ [] := List.ne_nil_of_mem hmem
      have hzero : [','].intercalate (p :: q :: qs) ≠ ['0'] := by
        intro hz
        rw [hz] at hmem
        exact absurd hmem (by decide)
      rw [isTrue, decide_eq_true hnil, decide_eq_true hzero]
      rfl

theorem intercalate_concat {separator : Char} (hne : parents ≠ []) :
    [separator].intercalate (parents ++ [p]) = [separator].intercalate parents ++ separator :: p
      := by
  induction parents with
  | nil => exact absurd rfl hne
  | cons q qs ih =>
    by_cases hqs : qs = []
    · subst hqs
      simp [List.intercalate_cons_cons]
    · have hne : qs ++ [p] ≠ [] := List.append_ne_nil_of_left_ne_nil hqs _
      rw [List.cons_append, List.intercalate_cons_of_ne_nil hne, ih hqs,
        List.intercalate_cons_of_ne_nil hqs]
      simp

/-- The strings are split as they were joined. -/
theorem perlSplit_intercalate (h : ∀ p ∈ parents, Listable p) (hne : parents ≠ []) :
    perlSplit ',' ([','].intercalate parents) = parents := by
  rw [perlSplit, List.splitOn_intercalate ',' (fun p hp => (h p hp).1) hne,
    List.rdropWhile_eq_self_iff]
  intro hl hempty
  exact (h _ (List.getLast_mem hl)).ne_nil (List.isEmpty_iff.mp hempty)

theorem getParents_eq (h : ∀ p ∈ parents, Listable p)
    (htable : table child = [','].intercalate parents) : getParents table child = parents := by
  by_cases hne : parents = []
  · subst hne
    rw [getParents, htable]
    rfl
  · rw [getParents, htable, if_pos (isTrue_intercalate h hne), perlSplit_intercalate h hne]

theorem addChild_eq (h : ∀ p ∈ parents, Listable p)
    (htable : table child = [','].intercalate parents) :
    addChild table parent child child = [','].intercalate (parents ++ [parent]) := by
  rw [addChild, Function.update_self, htable]
  by_cases hne : parents = []
  · subst hne
    simp [isTrue]
  · rw [if_pos (isTrue_intercalate h hne), intercalate_concat hne]

theorem Clean.addChild (h : Clean table) (hp : Listable parent) :
    Clean (addChild table parent child) := by
  intro c
  obtain ⟨parents, hparents, htable⟩ := h c
  by_cases hc : c = child
  · subst hc
    refine ⟨parents ++ [parent], ?_, addChild_eq hparents htable⟩
    intro p hmem
    rcases List.mem_append.mp hmem with hmem | hmem
    · exact hparents p hmem
    · exact List.mem_singleton.mp hmem ▸ hp
  · exact ⟨parents, hparents, (Function.update_of_ne hc ..).trans htable⟩

/-- `AddChild` adds one parent of one child. -/
theorem mem_getParents_addChild (h : Clean table) (hparent : Listable parent) :
    p ∈ getParents (addChild table parent child) c ↔
      p ∈ getParents table c ∨ p = parent ∧ c = child := by
  obtain ⟨parents, hparents, htable⟩ := h c
  by_cases hc : c = child
  · subst hc
    have hall : ∀ p ∈ parents ++ [parent], Listable p := by
      simpa [or_imp, forall_and] using ⟨hparents, hparent⟩
    rw [getParents_eq hall (addChild_eq hparents htable), getParents_eq hparents htable]
    simp
  · have hsame : addChild table parent child c = [','].intercalate parents :=
      (Function.update_of_ne hc ..).trans htable
    rw [getParents_eq hparents hsame, getParents_eq hparents htable]
    simp [hc]

/-! ### Scanning files for children -/

/-- The loop over files and over what each refers to: the references are collected in a set and
entered in the table. -/
def scan (children : Text → List Text) (files : List Text) (s : List Text × Child2Parent) :
    List Text × Child2Parent :=
  files.foldl (fun s file => (children file).foldl
    (fun s child => (setAdd s.1 child, addChild s.2 file child)) s) s

theorem scanOne_spec {file : Text} (found : List Text) {s : List Text × Child2Parent}
    (h : Clean s.2) (hfile : Listable file) :
    let t := found.foldl (fun s child => (setAdd s.1 child, addChild s.2 file child)) s
    Clean t.2 ∧ (∀ x, x ∈ t.1 ↔ x ∈ s.1 ∨ x ∈ found) ∧
      ∀ p c, p ∈ getParents t.2 c ↔ p ∈ getParents s.2 c ∨ p = file ∧ c ∈ found := by
  induction found generalizing s with
  | nil => exact ⟨h, by simp, by simp⟩
  | cons child found ih =>
    obtain ⟨hclean, hset, htable⟩ :=
      ih (s := (setAdd s.1 child, addChild s.2 file child)) (h.addChild hfile)
    refine ⟨hclean, fun x => ?_, fun p c => ?_⟩
    · rw [List.foldl_cons, hset, Descend.mem_addNew, List.mem_cons, or_assoc]
    · rw [List.foldl_cons, htable, mem_getParents_addChild h hfile, List.mem_cons, or_assoc,
        ← and_or_left]

/-- A scan finds the references of the files and enters them in the table. -/
theorem scan_spec (children : Text → List Text) {files : List Text}
    {s : List Text × Child2Parent} (h : Clean s.2) (hfiles : ∀ f ∈ files, Listable f) :
    Clean (scan children files s).2 ∧
    (∀ x, x ∈ (scan children files s).1 ↔ x ∈ s.1 ∨ ∃ f ∈ files, x ∈ children f) ∧
    ∀ p c, p ∈ getParents (scan children files s).2 c ↔
      p ∈ getParents s.2 c ∨ p ∈ files ∧ c ∈ children p := by
  induction files generalizing s with
  | nil => exact ⟨h, by simp [scan], by simp [scan]⟩
  | cons file files ih =>
    obtain ⟨hfile, hrest⟩ := List.forall_mem_cons.mp hfiles
    obtain ⟨hclean, hset, htable⟩ := scanOne_spec (children file) h hfile
    obtain ⟨hclean', hset', htable'⟩ := ih hclean hrest
    refine ⟨hclean', fun x => ?_, fun p c => ?_⟩
    · rw [scan, List.foldl_cons, ← scan, hset', hset, List.exists_mem_cons_iff, or_assoc]
    · rw [scan, List.foldl_cons, ← scan, htable', htable, List.mem_cons, or_assoc, or_and_right]
      exact or_congr Iff.rfl (or_congr (and_congr_right fun hp => by rw [hp]) Iff.rfl)

end Awb.Coverage
