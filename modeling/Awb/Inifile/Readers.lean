import Awb.Inifile.CxxInifile
import Awb.Inifile.PerlInifile

/-! A line of an ini file means the same to both readers, if it means something to both. -/

namespace Awb.Inifile

/-- A line that both readers see as it stands, and include the same file for. -/
structure PlainLine (line : Text) : Prop where
  noNul : '\x00' ∉ line
  notContinued : line.getLast? ≠ some '\\'
  include_eq : Cxx.includeName line = Perl.includeName line

section lines
variable {line : Text}

theorem cText_eq (h : '\x00' ∉ line) : Cxx.cText line = line := by
  rw [Cxx.cText, List.takeWhile_eq_self_iff]
  intro c hc
  have : c ≠ '\x00' := fun he => h (he ▸ hc)
  simpa using this

theorem head_of_includeStart {rest : Text} (h : matchIncludeStart line = some rest) :
    line.head? = some '#' := by
  unfold matchIncludeStart at h
  dsimp only at h
  split at h
  · rename_i hstarts
    cases line with
    | nil => simp at hstarts
    | cons c l =>
      have hc : '#' = c := by
        simp only [List.isPrefixOf_iff_prefix] at hstarts
        exact (List.cons_prefix_cons.mp hstarts).1
      simp [← hc]
  · simp at h

theorem head_of_includeName {name : Text} (h : Perl.includeName line = some name) :
    line.head? = some '#' := by
  unfold Perl.includeName at h
  split at h
  · simp at h
  · rename_i hstart
    exact head_of_includeStart hstart

theorem matchGroup_cons {c : Char} {l : Text} (hc : c ≠ '[') : matchGroup (c :: l) = none := by
  unfold matchGroup
  split
  · rename_i heq
    exact absurd (List.cons.inj heq).1 hc
  · rfl

/-- Only a line that starts with a character of a name is an item with a name. -/
theorem filter_matchItem_cons {c : Char} {l : Text} (hc : isItemChar c = false) :
    (matchItem (c :: l)).filter (fun x => decide (x.1 ≠ [])) = none := by
  unfold matchItem
  split
  · simp [hc]
  · rfl

/-- What Perl makes of a line that is neither a group nor an item. -/
theorem perl_lineKind_rest (hgroup : (matchGroup line).filter (· ≠ []) = none)
    (hitem : (matchItem line).filter (fun x => decide (x.1 ≠ [])) = none)
    (hinclude : Perl.includeName line = none) : Perl.lineKind line =
      if (line.dropWhile isBlank).head? = some '#' ∨ (line.dropWhile isBlank).head? = some ';' then
        .comment
      else if line.dropWhile isBlank = [] then .blank else .garbage := by
  rw [Perl.lineKind, hgroup, hitem, hinclude]

theorem head_dropWhile_isBlank {l rest : Text} (h : l.dropWhile (· = ' ') = '=' :: rest) :
    (l.dropWhile isBlank).head? = some '=' := by
  induction l with
  | nil => simp at h
  | cons c l ih =>
    by_cases hc : c = ' '
    · subst hc
      rw [List.dropWhile_cons_of_pos (by decide)] at h ⊢
      exact ih h
    · rw [List.dropWhile_cons_of_neg (by simpa using hc)] at h
      obtain rfl := (List.cons.inj h).1
      rfl

theorem includeName_of_head (h : line.head? ≠ some '#') : Perl.includeName line = none := by
  by_contra hne
  obtain ⟨name, hname⟩ := Option.ne_none_iff_exists'.mp hne
  exact h (head_of_includeName hname)

theorem cxx_lineKind_of_noInclude (hplain : PlainLine line)
    (hinclude : Perl.includeName line = none) : Cxx.lineKind line =
      if Cxx.matchComment line then .comment
      else match matchGroup line with
        | some name => .group name
        | none => match matchItem line with
          | some (name, value) => .item name value
          | none => .garbage := by
  rw [Cxx.lineKind, cText_eq hplain.noNul, hplain.include_eq, hinclude]
  dsimp only
  by_cases hnil : line = []
  · subst hnil
    rfl
  · exact if_congr (by simp [hnil]) rfl rfl

/-- A line that starts with a blank is passed over by a reader that accepts it. -/
theorem lineKind_eq_of_blank {c : Char} {l : Text} (hc : isBlank c = true)
    (hplain : PlainLine (c :: l)) (hcxx : Cxx.lineKind (c :: l) ≠ .garbage)
    (hperl : Perl.lineKind (Perl.squeezeBlanks (c :: l)) ≠ .garbage) :
    (Cxx.lineKind (c :: l)).skips = true ∧
      (Perl.lineKind (Perl.squeezeBlanks (c :: l))).skips = true := by
  have hspace : c = ' ' ∨ c = '\t' := by simpa [isBlank] using hc
  obtain ⟨rest, hrest⟩ : ∃ rest, (c :: l).dropWhile isBlank = rest := ⟨_, rfl⟩
  have hidem : rest.dropWhile isBlank = rest := by rw [← hrest, List.dropWhile_idempotent]
  have hsqueeze : Perl.squeezeBlanks (c :: l) = ' ' :: rest := by
    rw [Perl.squeezeBlanks, if_pos (by simpa using hc), hrest]
  have hgroup : (matchGroup (' ' :: rest)).filter (· ≠ []) = none := by
    rw [matchGroup_cons (by decide)]
    rfl
  have hkind := perl_lineKind_rest hgroup (filter_matchItem_cons (by decide))
    (includeName_of_head (by simp))
  rw [List.dropWhile_cons_of_pos (by decide), hidem] at hkind
  have hinclude : Perl.includeName (c :: l) = none := by
    refine includeName_of_head ?_
    rcases hspace with rfl | rfl <;> simp
  rw [hsqueeze, hkind] at hperl ⊢
  rw [cxx_lineKind_of_noInclude hplain hinclude] at hcxx ⊢
  by_cases hcomment : rest = [] ∨ rest.head? = some '#'
  · have hmatch : Cxx.matchComment (c :: l) = true := by
      simpa [Cxx.matchComment, hrest] using hcomment
    rw [if_pos hmatch]
    refine ⟨rfl, ?_⟩
    rcases hcomment with hnil | hhash
    · simp [hnil, LineKind.skips]
    · simp [hhash, LineKind.skips]
  · -- only Perl has comments with a semicolon
    exfalso
    obtain ⟨hnil, hhash⟩ := not_or.mp hcomment
    have hsemi : rest.head? = some ';' := by
      by_contra hne
      simp [hnil, hhash, hne] at hperl
    have hmatch : Cxx.matchComment (c :: l) = false := by
      simp [Cxx.matchComment, hrest, hnil, hhash]
    have hitem : matchItem (c :: l) = none := by
      unfold matchItem
      split
      · rename_i heq
        have hdrop : (c :: l).dropWhile isItemChar = c :: l := by
          rw [List.dropWhile_cons_of_neg]
          rcases hspace with rfl | rfl <;> decide
        rw [hdrop] at heq
        have hhead := head_dropWhile_isBlank heq
        rw [hrest, hsemi] at hhead
        simp at hhead
      · rfl
    have hgroup : matchGroup (c :: l) = none :=
      matchGroup_cons (by rcases hspace with rfl | rfl <;> decide)
    rw [hmatch, hgroup, hitem] at hcxx
    simp at hcxx

/-- A line that both readers accept means the same to both. -/
theorem lineKind_eq (hplain : PlainLine line) (hcxx : Cxx.lineKind line ≠ .garbage)
    (hperl : Perl.lineKind (Perl.squeezeBlanks line) ≠ .garbage) :
    (Cxx.lineKind line).skips = true ∧ (Perl.lineKind (Perl.squeezeBlanks line)).skips = true ∨
      Cxx.lineKind line = Perl.lineKind (Perl.squeezeBlanks line) := by
  by_cases hblank : line.head?.any isBlank = true
  · cases line with
    | nil => simp at hblank
    | cons c l => exact Or.inl (lineKind_eq_of_blank (by simpa using hblank) hplain hcxx hperl)
  have hsqueeze : Perl.squeezeBlanks line = line := by
    rw [Perl.squeezeBlanks, if_neg (by simpa using hblank)]
  have hdrop : line.dropWhile isBlank = line := by
    cases line with
    | nil => rfl
    | cons c l => exact List.dropWhile_cons_of_neg (by simpa using hblank)
  rw [hsqueeze] at hperl ⊢
  cases hinclude : Perl.includeName line with
  | some name =>
    right
    have hhead := head_of_includeName hinclude
    cases line with
    | nil => simp at hhead
    | cons c l =>
      obtain rfl : c = '#' := by simpa using hhead
      have hitem := filter_matchItem_cons (l := l) (show isItemChar '#' = false by decide)
      rw [Perl.lineKind, matchGroup_cons (by decide), hitem, hinclude, Cxx.lineKind,
        cText_eq hplain.noNul, hplain.include_eq, hinclude]
      rfl
  | none =>
    rw [cxx_lineKind_of_noInclude hplain hinclude] at hcxx ⊢
    by_cases hmatch : Cxx.matchComment line = true
    · left
      rw [if_pos hmatch]
      have hcases : line = [] ∨ line.head? = some '#' := by
        simpa [Cxx.matchComment, hdrop] using hmatch
      refine ⟨rfl, ?_⟩
      cases line with
      | nil => rfl
      | cons c l =>
        obtain rfl : c = '#' := by simpa using hcases
        rw [perl_lineKind_rest (by rw [matchGroup_cons (by decide)]; rfl)
          (filter_matchItem_cons (by decide)) hinclude, hdrop]
        rfl
    rw [if_neg hmatch] at hcxx ⊢
    right
    obtain ⟨hnil, hhash⟩ : line ≠ [] ∧ line.head? ≠ some '#' := by
      simpa [Cxx.matchComment, hdrop] using hmatch
    cases hgroup : matchGroup line with
    | some name =>
      by_cases hname : name = []
      · -- only the other reader takes an empty group
        exfalso
        subst hname
        obtain ⟨l, rfl⟩ : ∃ l, line = '[' :: l := by
          unfold matchGroup at hgroup
          split at hgroup
          · exact ⟨_, rfl⟩
          · simp at hgroup
        rw [perl_lineKind_rest (by rw [hgroup]; rfl) (filter_matchItem_cons (by decide)) hinclude,
          hdrop] at hperl
        simp at hperl
      · have hfilter : (matchGroup line).filter (· ≠ []) = some name := by
          rw [hgroup]
          exact Option.filter_some_pos (by simpa using hname)
        rw [Perl.lineKind, hfilter]
    | none =>
      rw [hgroup] at hcxx
      cases hitem : matchItem line with
      | none => simp [hitem] at hcxx
      | some x =>
        by_cases hname : x.1 = []
        · -- only the other reader takes an item without name
          exfalso
          rw [perl_lineKind_rest (by rw [hgroup]; rfl) (by simp [hitem, hname]) hinclude, hdrop]
            at hperl
          have hsemi : line.head? = some ';' := by
            by_contra hne
            simp [hnil, hhash, hne] at hperl
          cases line with
          | nil => simp at hsemi
          | cons c l =>
            obtain rfl : c = ';' := by simpa using hsemi
            have hnone : matchItem (';' :: l) = none := by
              rw [matchItem, List.dropWhile_cons_of_neg (by decide),
                List.dropWhile_cons_of_neg (by decide)]
              rfl
            rw [hnone] at hitem
            simp at hitem
        · have hnone : (matchGroup line).filter (· ≠ []) = none := by
            rw [hgroup]
            rfl
          have hfilter : (matchItem line).filter (fun x => decide (x.1 ≠ [])) = some x := by
            rw [hitem]
            exact Option.filter_some_pos (by simpa using hname)
          rw [Perl.lineKind, hnone, hfilter]

end lines

end Awb.Inifile
