import Awb.Svn.Versions

/-! What is inside a version tag: the name that is searched for, and the revision number. -/

namespace Awb.Svn

variable {name : List Char} {rev : Nat}

theorem isNumber_revision (rev : Nat) : isNumber (revision rev) = true := by
  have hne : revision rev ≠ [] := Nat.toDigits_ne_nil
  have hdigits : (revision rev).all Char.isDigit = true := List.all_eq_true.mpr fun c hc =>
    Nat.isDigit_of_mem_toDigits (by decide) (by decide) hc
  rw [isNumber, hdigits, Bool.and_true]
  cases h : revision rev with
  | nil => exact absurd h hne
  | cons c cs => rfl

theorem notMem_of_isNumber {s : List Char} {c : Char} (h : isNumber s) (hc : c.isDigit = false) :
    c ∉ s := by
  intro hmem
  have hall := List.all_eq_true.mp (Bool.and_elim_right h) c hmem
  rw [hc] at hall
  cases hall

theorem notMem_of_isWord {s : List Char} {c : Char} (h : isWord s) (hc : isWordChar c = false) :
    c ∉ s := by
  intro hmem
  have hall := List.all_eq_true.mp (Bool.and_elim_right h) c hmem
  rw [hc] at hall
  cases hall

theorem isWord_of_isNumber {s : List Char} (h : isNumber s) : isWord s := by
  have hne := Bool.and_elim_left h
  have hall : s.all isWordChar = true := by
    refine List.all_eq_true.mpr fun c hc => ?_
    have hdigit := List.all_eq_true.mp (Bool.and_elim_right h) c hc
    rw [isWordChar, Char.isAlphanum, hdigit, Bool.or_true, Bool.true_or]
  rw [isWord, hne, hall]
  rfl

theorem csnName_some {version : List Char} (h : csnName version = some name) :
    ∃ csn number, version = csn ++ '-' :: (name ++ '-' :: number) ∧
      csn.map Char.toLower = "csn".toList ∧ isWord name ∧ isNumber number := by
  unfold csnName at h
  split at h
  · rename_i csn name' number hsplit
    split_ifs at h with hcsn
    obtain rfl := Option.some.inj h
    refine ⟨csn, number, ?_, hcsn⟩
    have hjoin : ['-'].intercalate (version.splitOn '-') = version := List.intercalate_splitOn '-'
    rw [hsplit] at hjoin
    rw [← hjoin]
    simp
  · cases h

theorem colonName_some {version : List Char} (h : colonName version = some name) :
    ∃ number, version = name ++ ':' :: number ∧ isWord name ∧ isNumber number := by
  unfold colonName at h
  split at h
  · rename_i name' number hsplit
    split_ifs at h with hname
    obtain rfl := Option.some.inj h
    refine ⟨number, ?_, hname⟩
    have hjoin : [':'].intercalate (version.splitOn ':') = version := List.intercalate_splitOn ':'
    rw [hsplit] at hjoin
    rw [← hjoin]
    simp
  · cases h

/-- A version without `-` and `:` stands for itself. -/
theorem versionName_of_isWord (h : isWord name) : versionName name = name := by
  have hcsn : csnName name = none := by
    cases hcsn : csnName name with
    | none => rfl
    | some name' =>
      obtain ⟨csn, number, rfl, -⟩ := csnName_some hcsn
      exact absurd (by simp) (notMem_of_isWord h (c := '-') rfl)
  have hcolon : colonName name = none := by
    cases hcolon : colonName name with
    | none => rfl
    | some name' =>
      obtain ⟨number, rfl, -⟩ := colonName_some hcolon
      exact absurd (by simp) (notMem_of_isWord h (c := ':') rfl)
  rw [versionName, hcsn, hcolon, Option.getD_none]

/-- The tag of a branch gives its name only if that is a word. -/
theorem versionName_branch : versionName (name ++ ':' :: revision rev) =
    if isWord name then name else name ++ ':' :: revision rev := by
  have hnumber := isNumber_revision rev
  have hcsn : csnName (name ++ ':' :: revision rev) = none := by
    cases hcsn : csnName (name ++ ':' :: revision rev) with
    | none => rfl
    | some name' =>
      obtain ⟨csn, number, heq, hlower, hname, hnum⟩ := csnName_some hcsn
      have hmem : ':' ∈ csn ++ '-' :: (name' ++ '-' :: number) := heq ▸ by simp
      simp only [List.mem_append, List.mem_cons] at hmem
      have hcsn' : ':' ∉ csn := by
        intro hc
        have hc' := List.mem_map_of_mem (f := Char.toLower) hc
        rw [hlower] at hc'
        exact absurd hc' (by decide)
      have hn : ':' ∉ name' := notMem_of_isWord hname rfl
      have hn' : ':' ∉ number := notMem_of_isNumber hnum rfl
      rcases hmem with hc | hc | hc | hc | hc
      · exact absurd hc hcsn'
      · cases hc
      · exact absurd hc hn
      · cases hc
      · exact absurd hc hn'
  rw [versionName, hcsn]
  split_ifs with hword
  · have hcolon : colonName (name ++ ':' :: revision rev) = some name := by
      rw [colonName, List.splitOn_append_cons_self_of_not_mem (notMem_of_isWord hword rfl),
        List.splitOn_eq_singleton (notMem_of_isNumber hnumber rfl)]
      exact if_pos ⟨hword, hnumber⟩
    rw [hcolon, Option.getD_some]
  · cases hcolon : colonName (name ++ ':' :: revision rev) with
    | none => rfl
    | some name' =>
      obtain ⟨number, heq, hword', hnum⟩ := colonName_some hcolon
      have hsplit := congrArg (List.splitOn ':') heq
      rw [List.splitOn_append_cons_self, List.splitOn_append_cons_self,
        List.splitOn_eq_singleton (notMem_of_isNumber hnumber rfl),
        List.splitOn_eq_singleton (notMem_of_isNumber hnum rfl),
        List.splitOn_eq_singleton (notMem_of_isWord hword' rfl)] at hsplit
      have hname := congrArg ([':'].intercalate) (List.append_inj' hsplit rfl).1
      rw [List.intercalate_splitOn, List.intercalate_singleton] at hname
      exact absurd (hname ▸ hword') hword

/-! ### Revision numbers -/

theorem lastSegment_append {c : Char} {s t : List Char} (h : c ∉ t) :
    lastSegment c (s ++ t) = lastSegment c s ++ t := by
  have hpos : ∀ d ∈ t.reverse, decide (d ≠ c) = true := fun d hd =>
    decide_eq_true fun heq => h (heq ▸ List.mem_reverse.mp hd)
  rw [lastSegment, List.rtakeWhile, List.reverse_append, List.takeWhile_append_of_pos hpos,
    List.reverse_append, List.reverse_reverse]
  rfl

theorem getRevisionNumber_revision : getRevisionNumber (revision rev) = some (revision rev) := by
  have hnumber := isNumber_revision rev
  have hdash : '-' ∉ (revision rev).drop 4 := fun hmem =>
    notMem_of_isNumber hnumber (c := '-') rfl (List.mem_of_mem_drop hmem)
  have hcolon : ':' ∉ revision rev := notMem_of_isNumber hnumber rfl
  rw [getRevisionNumber, if_neg fun h => hdash h.2.1, if_neg fun h => hcolon h.1, if_pos hnumber]

/-- The tag of a branch keeps the revision, whatever its name is. -/
theorem getRevisionNumber_branch :
    getRevisionNumber (name ++ ':' :: revision rev) = some (revision rev) := by
  have hnumber := isNumber_revision rev
  have hcolon : ':' ∉ revision rev := notMem_of_isNumber hnumber rfl
  have hdash : '-' ∉ ':' :: revision rev := by
    intro hmem
    rcases List.mem_cons.mp hmem with h | h
    · cases h
    · exact notMem_of_isNumber hnumber rfl h
  have hlast : lastSegment ':' (name ++ ':' :: revision rev) = revision rev := by
    have happend : name ++ ':' :: revision rev = (name ++ [':']) ++ revision rev := by simp
    rw [happend, lastSegment_append hcolon, lastSegment, List.rtakeWhile_concat]
    rfl
  -- a tag that begins with `CSN-` has its colon behind the last dash
  have hcsn : ¬ ((name ++ ':' :: revision rev).take 4 = "CSN-".toList ∧
      '-' ∈ (name ++ ':' :: revision rev).drop 4 ∧
      isNumber (lastSegment '-' ((name ++ ':' :: revision rev).drop 4))) := by
    rintro ⟨htake, -, hnum⟩
    have hlength : 4 ≤ name.length := by
      by_contra hlt
      have hmem : ':' ∈ (name ++ ':' :: revision rev).take 4 := by
        obtain ⟨k, hk⟩ : ∃ k, 4 - name.length = k + 1 := ⟨3 - name.length, by omega⟩
        rw [List.take_append, hk, List.take_succ_cons]
        exact List.mem_append_right _ List.mem_cons_self
      rw [htake] at hmem
      exact absurd hmem (by decide)
    rw [List.drop_append_of_le_length hlength, lastSegment_append hdash] at hnum
    exact notMem_of_isNumber hnum (c := ':') rfl (by simp)
  rw [getRevisionNumber, if_neg hcsn, hlast, if_pos ⟨by simp, hnumber⟩]

/-! ### The search -/

variable {svn : Subversion} {repo url version v : List Char}

/-- A version of letters, digits and `_` matches the lines that begin with it and a slash. -/
def Subversion.LiteralWords (svn : Subversion) : Prop :=
  ∀ version line, isWord version →
    svn.matchLine version line = some (decide ((version ++ ['/']) <+: line))

/-- A directory of this name is listed. -/
def Subversion.Listed (svn : Subversion) (v url : List Char) : Prop :=
  ∃ line ∈ svn.list url, (v ++ ['/']) <+: line

/-- The search for a name fails: it is `0`, which is false, or not listed. -/
def Subversion.NotFound (svn : Subversion) (v repo : List Char) : Prop :=
  v = "0".toList ∨
    (¬ svn.Listed v (repo ++ "/tags".toList) ∧ ¬ svn.Listed v (repo ++ "/branches".toList))

theorem found_of_isWord (hsvn : svn.LiteralWords) (hv : isWord v) (lines : List (List Char)) :
    svn.found v lines = some (decide (∃ line ∈ lines, (v ++ ['/']) <+: line)) := by
  induction lines with
  | nil => simp [Subversion.found]
  | cons line lines ih =>
    rw [Subversion.found, hsvn v line hv, Option.bind_some, ih]
    by_cases hline : (v ++ ['/']) <+: line
    · simp [hline]
    · simp [hline]

theorem found_iff_listed (hsvn : svn.LiteralWords) (hv : isWord v) :
    svn.found v (svn.list url) = some true ↔ svn.Listed v url := by
  rw [found_of_isWord hsvn hv, Option.some_inj, decide_eq_true_iff]
  rfl

theorem notFound_iff_listed (hsvn : svn.LiteralWords) (hv : isWord v) :
    svn.found v (svn.list url) = some false ↔ ¬ svn.Listed v url := by
  rw [found_of_isWord hsvn hv, Option.some_inj, decide_eq_false_iff_not]
  rfl

theorem isSearched_of_isWord (hv : isWord v) :
    isSearched v = true ↔ v ≠ "0".toList ∧ v ≠ "HEAD".toList := by
  have hne : v ≠ [] := by
    rintro rfl
    cases hv
  simp only [isSearched, Bool.and_eq_true, decide_eq_true_eq, hne, ne_eq, not_false_eq_true,
    true_and]

/-! The three kinds of results are different. -/

theorem tag_ne_trunk : repo ++ '/' :: "tags".toList ++ '/' :: v ≠ repo ++ "/trunk".toList := by
  rw [List.append_assoc]
  exact fun h => by simpa using List.append_cancel_left h

theorem branch_ne_trunk :
    repo ++ '/' :: "branches".toList ++ '/' :: v ≠ repo ++ "/trunk".toList := by
  rw [List.append_assoc]
  exact fun h => by simpa using List.append_cancel_left h

theorem tag_ne_branch : repo ++ '/' :: "tags".toList ++ '/' :: v ≠
    repo ++ '/' :: "branches".toList ++ '/' :: name := by
  rw [List.append_assoc, List.append_assoc]
  exact fun h => by simpa using List.append_cancel_left h

/-- What the search returns, and when. -/
theorem search_eq : svn.search v repo ["tags".toList, "branches".toList] =
    (svn.found v (svn.list (repo ++ '/' :: "tags".toList))).bind fun inTags =>
      if inTags then some (repo ++ '/' :: "tags".toList ++ '/' :: v)
      else (svn.found v (svn.list (repo ++ '/' :: "branches".toList))).bind fun inBranches =>
        if inBranches then some (repo ++ '/' :: "branches".toList ++ '/' :: v)
        else some (repo ++ "/trunk".toList) := rfl

theorem search_eq_trunk :
    svn.search v repo ["tags".toList, "branches".toList] = some (repo ++ "/trunk".toList) ↔
      svn.found v (svn.list (repo ++ "/tags".toList)) = some false ∧
        svn.found v (svn.list (repo ++ "/branches".toList)) = some false := by
  rw [search_eq]
  change _ ↔ svn.found v (svn.list (repo ++ '/' :: "tags".toList)) = some false ∧
    svn.found v (svn.list (repo ++ '/' :: "branches".toList)) = some false
  cases svn.found v (svn.list (repo ++ '/' :: "tags".toList)) with
  | none => simp only [Option.bind_none, reduceCtorEq, false_and]
  | some inTags =>
    rw [Option.bind_some]
    cases inTags with
    | true =>
      simp only [if_true, Option.some.injEq, tag_ne_trunk, reduceCtorEq, false_and]
    | false =>
      cases svn.found v (svn.list (repo ++ '/' :: "branches".toList)) with
      | none => simp only [Bool.false_eq_true, if_false, Option.bind_none, reduceCtorEq, and_false]
      | some inBranches =>
        cases inBranches with
        | true => simp only [Bool.false_eq_true, if_false, if_true, Option.bind_some,
            Option.some.injEq, branch_ne_trunk, reduceCtorEq, and_false]
        | false => simp only [Bool.false_eq_true, if_false, Option.bind_some, and_self]

theorem search_eq_branch : svn.search v repo ["tags".toList, "branches".toList] =
      some (repo ++ '/' :: "branches".toList ++ '/' :: name) ↔
    svn.found v (svn.list (repo ++ "/tags".toList)) = some false ∧
      svn.found v (svn.list (repo ++ "/branches".toList)) = some true ∧ v = name := by
  rw [search_eq]
  change _ ↔ svn.found v (svn.list (repo ++ '/' :: "tags".toList)) = some false ∧
    svn.found v (svn.list (repo ++ '/' :: "branches".toList)) = some true ∧ v = name
  cases svn.found v (svn.list (repo ++ '/' :: "tags".toList)) with
  | none => simp only [Option.bind_none, reduceCtorEq, false_and]
  | some inTags =>
    rw [Option.bind_some]
    cases inTags with
    | true =>
      simp only [if_true, Option.some.injEq, tag_ne_branch, reduceCtorEq, false_and]
    | false =>
      cases svn.found v (svn.list (repo ++ '/' :: "branches".toList)) with
      | none => simp only [Bool.false_eq_true, if_false, Option.bind_none, reduceCtorEq, false_and,
          and_false]
      | some inBranches =>
        cases inBranches with
        | true => simp only [Bool.false_eq_true, if_false, if_true, Option.bind_some,
            Option.some.injEq, List.append_cancel_left_eq, List.cons.injEq, true_and]
        | false => simp only [Bool.false_eq_true, if_false, Option.bind_some, Option.some.injEq,
            branch_ne_trunk.symm, false_and, and_false]

theorem search_eq_tag : svn.search v repo ["tags".toList, "branches".toList] =
      some (repo ++ '/' :: "tags".toList ++ '/' :: name) ↔
    svn.found v (svn.list (repo ++ "/tags".toList)) = some true ∧ v = name := by
  rw [search_eq]
  change _ ↔ svn.found v (svn.list (repo ++ '/' :: "tags".toList)) = some true ∧ v = name
  cases svn.found v (svn.list (repo ++ '/' :: "tags".toList)) with
  | none => simp only [Option.bind_none, reduceCtorEq, false_and]
  | some inTags =>
    rw [Option.bind_some]
    cases inTags with
    | true => simp only [if_true, Option.some.injEq, List.append_cancel_left_eq, List.cons.injEq,
        true_and]
    | false =>
      cases svn.found v (svn.list (repo ++ '/' :: "branches".toList)) with
      | none => simp only [Bool.false_eq_true, if_false, Option.bind_none, reduceCtorEq,
          Option.some.injEq, false_and]
      | some inBranches =>
        cases inBranches with
        | true => simp only [Bool.false_eq_true, if_false, if_true, Option.bind_some,
            Option.some.injEq, tag_ne_branch.symm, false_and]
        | false => simp only [Bool.false_eq_true, if_false, Option.bind_some, Option.some.injEq,
            tag_ne_trunk.symm, false_and]

/-- The name of a version is part of it. -/
theorem slash_versionName (h : '/' ∉ version) : '/' ∉ versionName version := by
  rw [versionName]
  cases hcsn : csnName version with
  | some name =>
    obtain ⟨csn, number, rfl, -⟩ := csnName_some hcsn
    exact fun hmem => h (by simp [show '/' ∈ name from hmem])
  | none =>
    cases hcolon : colonName version with
    | none => exact h
    | some name =>
      obtain ⟨number, rfl, -⟩ := colonName_some hcolon
      exact fun hmem => h (by simp [show '/' ∈ name from hmem])

theorem partAfter_mem {ps : List (List Char)} {q : List Char} (h : partAfter name ps = some q) :
    q ∈ ps := by
  induction ps using partAfter.induct name with
  | case1 p q' ps hp =>
    rw [partAfter, if_pos hp] at h
    obtain rfl := Option.some.inj h
    exact List.mem_cons_of_mem p List.mem_cons_self
  | case2 p q' ps hp ih =>
    rw [partAfter, if_neg hp] at h
    exact List.mem_cons_of_mem p (ih h)
  | case3 ps hps =>
    rw [partAfter] at h
    · cases h
    · exact hps

theorem slash_nameAfter : '/' ∉ (nameAfter name url).getD [] := by
  cases h : nameAfter name url with
  | none => exact List.not_mem_nil
  | some q => exact notMem_of_mem_parts (List.mem_of_mem_tail (partAfter_mem h))

theorem slash_baselineTag : '/' ∉ baselineTag none url rev := by
  have hrevision : '/' ∉ revision rev := notMem_of_isNumber (isNumber_revision rev) rfl
  unfold baselineTag
  split_ifs
  · exact slash_nameAfter
  · intro hmem
    rcases List.mem_append.mp hmem with hmem | hmem
    · exact slash_nameAfter hmem
    · rcases List.mem_cons.mp hmem with hmem | hmem
      · cases hmem
      · exact hrevision hmem
  · exact hrevision

/-- The URL of a version has at most two parts more than that of the repository. -/
theorem getVersionUrl_parts {u : List Char} (hslash : '/' ∉ version)
    (h : svn.getVersionUrl url version = some u) :
    parts u = parts (getRepositoryUrl url) ++ ["trunk".toList] ∨
      ∃ subdir, parts u = parts (getRepositoryUrl url) ++ [subdir, versionName version] := by
  have htrunk : parts (getRepositoryUrl url ++ "/trunk".toList) =
      parts (getRepositoryUrl url) ++ ["trunk".toList] := parts_slash
  have hsub : ∀ subdir : List Char, '/' ∉ subdir →
      parts (getRepositoryUrl url ++ '/' :: subdir ++ '/' :: versionName version) =
        parts (getRepositoryUrl url) ++ [subdir, versionName version] := by
    intro subdir hsubdir
    rw [parts_slash, parts_slash, parts_single hsubdir, parts_single (slash_versionName hslash),
      List.append_assoc]
    rfl
  rw [Subversion.getVersionUrl] at h
  split_ifs at h with hsearched
  · rw [search_eq] at h
    obtain ⟨inTags, -, h⟩ := Option.bind_eq_some_iff.mp h
    split_ifs at h with htags
    · obtain rfl := Option.some.inj h
      exact Or.inr ⟨_, hsub _ (by decide)⟩
    · obtain ⟨inBranches, -, h⟩ := Option.bind_eq_some_iff.mp h
      split_ifs at h with hbranches
      · obtain rfl := Option.some.inj h
        exact Or.inr ⟨_, hsub _ (by decide)⟩
      · obtain rfl := Option.some.inj h
        exact Or.inl htrunk
  · obtain rfl := Option.some.inj h
    exact Or.inl htrunk

end Awb.Svn
