import Awb.Inifile.Names
import Awb.Inifile.Readers

/-! The lines that `save` prints, as `open` reads them. -/

namespace Awb.Inifile.Perl

section skips
variable {line : Text}

theorem lineKind_skips_iff : (lineKind line).skips = true ↔ includeName line = none ∧
    ((line.dropWhile isBlank).head? = some '#' ∨ (line.dropWhile isBlank).head? = some ';' ∨
      line.dropWhile isBlank = []) := by
  constructor
  · intro h
    unfold lineKind at h
    split at h
    · simp [LineKind.skips] at h
    · split at h
      · simp [LineKind.skips] at h
      · split at h
        · simp [LineKind.skips] at h
        · rename_i hinclude
          refine ⟨hinclude, ?_⟩
          by_contra hrest
          simp only [not_or] at hrest
          simp [hrest, LineKind.skips] at h
  · rintro ⟨hinclude, hrest⟩
    have hkind : lineKind line =
        if (line.dropWhile isBlank).head? = some '#' ∨ (line.dropWhile isBlank).head? = some ';' then
          .comment
        else if line.dropWhile isBlank = [] then .blank else .garbage := by
      cases line with
      | nil => rfl
      | cons c l =>
        have hc : c = '#' ∨ c = ';' ∨ isBlank c = true := by
          by_cases hblank : isBlank c = true
          · exact Or.inr (Or.inr hblank)
          · rw [List.dropWhile_cons_of_neg hblank] at hrest
            simpa [hblank] using hrest
        have hgroup : c ≠ '[' := by rintro rfl; simp [isBlank] at hc
        have hitem : isItemChar c = false := by
          rcases hc with rfl | rfl | hc
          · decide
          · decide
          · obtain rfl | rfl : c = ' ' ∨ c = '\t' := by simpa [isBlank] using hc
            all_goals decide
        exact perl_lineKind_rest (by rw [matchGroup_cons hgroup]; rfl)
          (filter_matchItem_cons hitem) hinclude
    rw [hkind]
    rcases hrest with h | h | h <;> simp [h, LineKind.skips]

theorem skips_squeezeBlanks (h : (lineKind line).skips = true) :
    (lineKind (squeezeBlanks line)).skips = true := by
  unfold squeezeBlanks
  split
  · obtain ⟨-, hrest⟩ := lineKind_skips_iff.mp h
    refine lineKind_skips_iff.mpr ⟨includeName_of_head (by simp), ?_⟩
    rwa [List.dropWhile_cons_of_pos (by decide), List.dropWhile_idempotent]
  · exact h

theorem dropWhile_append_of_ne_nil {p : Char → Bool} {l l' : Text} (h : l.dropWhile p ≠ []) :
    (l ++ l').dropWhile p = l.dropWhile p ++ l' := by
  rw [List.dropWhile_append, if_neg (by simpa using h)]

theorem matchIncludeStart_append {rest : Text} (h : matchIncludeStart line = some rest) (l : Text) :
    matchIncludeStart (line ++ l) = some (rest ++ l) := by
  unfold matchIncludeStart at h ⊢
  dsimp only at h ⊢
  split at h
  · rename_i hstart
    have hstarts : "#include".toList <+: line := by simpa using hstart
    have hlength := hstarts.length_le
    rw [if_pos (by simpa using hstarts.trans (List.prefix_append line l)),
      List.drop_append_of_le_length hlength]
    generalize line.drop "#include".toList.length = after at h ⊢
    split at h
    · rename_i name hquote
      split at h
      · rename_i hblank
        obtain rfl := Option.some.inj h
        rw [dropWhile_append_of_ne_nil (by simp [hquote]), hquote]
        cases after with
        | nil => simp at hblank
        | cons c after => exact if_pos hblank
      · simp at h
    · simp at h
  · simp at h

theorem includeName_of_append {l : Text} (h : includeName (line ++ l) = none) :
    includeName line = none := by
  unfold includeName at h ⊢
  split
  · rfl
  · rename_i rest hstart
    rw [matchIncludeStart_append hstart] at h
    cases rest with
    | nil => rfl
    | cons c rest =>
      have hc : c = '"' := by
        by_contra hne
        simp [hne] at h
      simp [hc]

/-- What a line that is passed over begins with is passed over. -/
theorem skips_of_append {l : Text} (h : (lineKind (line ++ l)).skips = true) :
    (lineKind line).skips = true := by
  obtain ⟨hinclude, hrest⟩ := lineKind_skips_iff.mp h
  refine lineKind_skips_iff.mpr ⟨includeName_of_append hinclude, ?_⟩
  by_cases hnil : line.dropWhile isBlank = []
  · exact Or.inr (Or.inr hnil)
  · rw [dropWhile_append_of_ne_nil hnil, List.head?_append_of_ne_nil _ hnil] at hrest
    simpa [hnil] using hrest

theorem skips_stripContinuation (h : (lineKind line).skips = true) :
    (lineKind (stripContinuation line)).skips = true := by
  obtain ⟨l, hl⟩ : stripContinuation line <+: line :=
    (List.rdropWhile_prefix _ _).trans (List.dropLast_prefix line)
  exact skips_of_append (hl.symm ▸ h : (lineKind (stripContinuation line ++ l)).skips = true)

end skips

section lines
variable {group item value : Text}

theorem lineKind_groupLine (h : IsGroup group) : lineKind (groupLine group) = .group group := by
  have hmatch : matchGroup (groupLine group) = some group := by
    change matchGroup ('[' :: (group ++ [']'])) = some group
    rw [matchGroup, if_pos ⟨by simp, by simpa using h.all⟩, List.dropLast_concat]
  have hfilter : (matchGroup (groupLine group)).filter (· ≠ []) = some group := by
    rw [hmatch]
    exact Option.filter_some_pos (by simpa using h.ne_nil)
  rw [lineKind, hfilter]

theorem matchItem_itemLine (hitem : IsItem item) (hvalue : IsValue value) :
    matchItem (itemLine item value) = some (item, value) := by
  have hall : ∀ c ∈ item, isItemChar c = true := List.all_eq_true.mp hitem.all
  have htake : (itemLine item value).takeWhile isItemChar = item := by
    rw [itemLine, List.takeWhile_append_of_pos hall, List.takeWhile_cons_of_neg (by decide),
      List.append_nil]
  have hdrop : (itemLine item value).dropWhile isItemChar = '=' :: value := by
    rw [itemLine, List.dropWhile_append_of_pos hall, List.dropWhile_cons_of_neg (by decide)]
  have hspace : value.dropWhile (· = ' ') = value := by
    cases value with
    | nil => rfl
    | cons c value => exact List.dropWhile_cons_of_neg (by simpa using hvalue.noSpace)
  rw [matchItem, hdrop, htake, List.dropWhile_cons_of_neg (by decide)]
  exact congrArg (fun v => some (item, v)) hspace

/-- The first character of an item line. -/
theorem exists_head (hitem : IsItem item) (value : Text) :
    ∃ c l, itemLine item value = c :: l ∧ isItemChar c = true := by
  obtain ⟨c, l, rfl⟩ := List.exists_cons_of_ne_nil hitem.ne_nil
  exact ⟨c, l ++ '=' :: value, rfl, List.all_eq_true.mp hitem.all c (List.mem_cons_self ..)⟩

theorem lineKind_itemLine (hitem : IsItem item) (hvalue : IsValue value) :
    lineKind (itemLine item value) = .item item value := by
  have hgroup : matchGroup (itemLine item value) = none := by
    obtain ⟨c, l, hline, hc⟩ := exists_head hitem value
    rw [hline, matchGroup_cons]
    rintro rfl
    exact absurd hc (by decide)
  have hfilter : (matchItem (itemLine item value)).filter (fun x => decide (x.1 ≠ [])) =
      some (item, value) := by
    rw [matchItem_itemLine hitem hvalue]
    exact Option.filter_some_pos (by simpa using hitem.ne_nil)
  rw [lineKind, hgroup, Option.filter_none, hfilter]

theorem squeezeBlanks_itemLine (hitem : IsItem item) :
    squeezeBlanks (itemLine item value) = itemLine item value := by
  obtain ⟨c, l, hline, hc⟩ := exists_head hitem value
  rw [hline, squeezeBlanks, if_neg]
  intro hblank
  obtain rfl | rfl : c = ' ' ∨ c = '\t' := by simpa [isBlank] using hblank
  all_goals exact absurd hc (by decide)

theorem getLast?_itemLine (hvalue : value.getLast? ≠ some '\\') :
    (itemLine item value).getLast? ≠ some '\\' := by
  rw [itemLine, List.getLast?_append, List.getLast?_cons]
  cases hlast : value.getLast? with
  | none => simp
  | some c => simpa [hlast] using hvalue

theorem newline_not_mem_groupLine (h : group = [] ∨ IsGroup group) : '\n' ∉ groupLine group := by
  rcases h with rfl | h
  · decide
  · intro hmem
    have hgroup : '\n' ∈ group := by simpa [groupLine] using hmem
    exact absurd (List.all_eq_true.mp h.all _ hgroup) (by decide)

theorem newline_not_mem_itemLine (hitem : IsItem item) (hvalue : '\n' ∉ value) :
    '\n' ∉ itemLine item value := by
  intro hmem
  have hitem' : '\n' ∈ item := by simpa [itemLine, hvalue] using hmem
  exact absurd (List.all_eq_true.mp hitem.all _ hitem') (by decide)

end lines

section read
variable (openFile : Text → Data → Option Data)

/-- What `open` makes of lines that end in newlines. -/
def readLines (t : State) (lines : List Text) : Option State :=
  (lines.map (· ++ ['\n'])).foldlM (openLine openFile) t

variable {openFile} {t t' : State} {group item value line : Text}

theorem readLines_append {lines : List Text} (h : readLines openFile t lines = some t')
    (lines' : List Text) :
    readLines openFile t (lines ++ lines') = readLines openFile t' lines' := by
  rw [readLines, List.map_append, List.foldlM_append]
  exact congrArg (Option.bind · _) h

theorem readLines_singleton : readLines openFile t [line] = openLine openFile t (line ++ ['\n']) := by
  simp [readLines]

theorem readLines_skip (hskip : (lineKind line).skips = true) (hlast : line.getLast? ≠ some '\\')
    (hmore : t.more = []) : readLines openFile t [line] = some t := by
  rw [readLines_singleton, openLine_of_skips (by simpa using hlast)
    (by simpa [hmore] using skips_squeezeBlanks hskip), ← hmore]

/-- A blank line ends what is continued. -/
theorem readLines_blank (hskip : (lineKind t.more).skips = true) :
    readLines openFile t [[]] = some { t with more := [] } := by
  have hchomp : chomp ['\n'] = [] := by decide
  rw [readLines_singleton, List.nil_append, openLine_of_skips (by simp [hchomp])]
  simpa [hchomp, squeezeBlanks] using hskip

/-- A line that is passed over, even if it is continued. -/
theorem readLines_last (hskip : (lineKind line).skips = true) (hmore : t.more = []) :
    ∃ more, readLines openFile t [line] = some { t with more } ∧ (lineKind more).skips = true := by
  by_cases hlast : line.getLast? = some '\\'
  · refine ⟨stripContinuation (squeezeBlanks line), ?_,
      skips_stripContinuation (skips_squeezeBlanks hskip)⟩
    rw [readLines_singleton, openLine]
    simp [hlast, hmore]
  · exact ⟨[], by rw [readLines_skip hskip hlast hmore, ← hmore], by decide⟩

theorem readLines_group (hgroup : IsGroup group) (hmore : t.more = []) :
    readLines openFile t [groupLine group] = some { t with curgroup := some group } := by
  have hlast : (groupLine group).getLast? ≠ some '\\' := by
    change (('[' :: group) ++ [']']).getLast? ≠ some '\\'
    rw [List.getLast?_concat]
    decide
  have hsqueeze : squeezeBlanks (groupLine group) = groupLine group := by
    simp [squeezeBlanks, groupLine, isBlank]
  rw [readLines_singleton, openLine]
  simp only [chomp_append_newline, if_neg hlast, hsqueeze, hmore, List.nil_append,
    lineKind_groupLine hgroup]

theorem readLines_item (hitem : IsItem item) (hvalue : IsValue value)
    (hlast : value.getLast? ≠ some '\\') (hmore : t.more = []) :
    readLines openFile t [itemLine item value] =
      some { t with data := t.data.set (t.curgroup.getD []) item (some value) } := by
  rw [readLines_singleton, openLine]
  simp only [chomp_append_newline, if_neg (getLast?_itemLine hlast), squeezeBlanks_itemLine hitem,
    hmore, List.nil_append, lineKind_itemLine hitem hvalue]

/-- The lines of several items of the current group. -/
theorem readLines_items {items : List Text} {values : Text → Text}
    (hitems : ∀ i ∈ items, IsItem i ∧ IsValue (values i) ∧ (values i).getLast? ≠ some '\\')
    (hmore : t.more = []) (hcur : t.curgroup = some group) :
    ∃ data, readLines openFile t (items.map fun i => itemLine i (values i)) =
        some { t with data } ∧
      ∀ g i, data.value g i =
        if g = group ∧ i ∈ items then some (values i) else t.data.value g i := by
  induction items generalizing t with
  | nil => exact ⟨t.data, rfl, by simp⟩
  | cons item items ih =>
    obtain ⟨⟨hitem, hvalue, hlast⟩, hrest⟩ := List.forall_mem_cons.mp hitems
    have hfirst : readLines openFile t [itemLine item (values item)] =
        some { t with data := t.data.set (t.curgroup.getD []) item (some (values item)) } :=
      readLines_item hitem hvalue hlast hmore
    obtain ⟨data, hread, hdata⟩ :=
      ih (t := { t with data := t.data.set (t.curgroup.getD []) item (some (values item)) })
        hrest hmore hcur
    refine ⟨data, ?_, fun g i => ?_⟩
    · rw [List.map_cons, ← List.singleton_append, readLines_append hfirst, hread]
    · rw [hdata]
      dsimp only
      rw [Data.value_set, hcur, Option.getD_some]
      by_cases hg : g = group
      · by_cases hi : i = item
        · simp [hg, hi]
        · simp [hg, hi]
      · simp [hg]

/-- A line that is not continued leaves nothing to continue. -/
theorem more_of_openLine {raw : Text} (hlast : (chomp raw).getLast? ≠ some '\\')
    (h : openLine openFile t raw = some t') : t'.more = [] := by
  unfold openLine at h
  simp only [if_neg hlast] at h
  cases hkind : lineKind (t.more ++ squeezeBlanks (chomp raw)) with
  | includes name =>
    simp only [hkind] at h
    obtain ⟨data, -, ht⟩ := Option.bind_eq_some_iff.mp h
    exact Option.some.inj ht ▸ rfl
  | garbage => simp [hkind] at h
  | _ =>
    simp only [hkind, Option.some.injEq] at h
    exact h ▸ rfl

/-- Items outside of any group get a group line that `open` does not accept. -/
theorem readLines_noGroup (lines : List Text) :
    readLines openFile t ([] :: groupLine [] :: lines) = none := by
  rw [readLines, List.map_cons, List.map_cons, List.foldlM_cons]
  refine Option.bind_eq_none_iff.mpr fun t' ht' => ?_
  have hmore := more_of_openLine (by decide) ht'
  have hgarbage : openLine openFile t' (groupLine [] ++ ['\n']) = none := by
    unfold openLine
    rw [chomp_append_newline, hmore]
    rfl
  rw [List.foldlM_cons, hgarbage]
  rfl

end read

end Awb.Inifile.Perl
