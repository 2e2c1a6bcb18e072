import Awb.Svn.Tags

/-! When the tag of a working copy leads back to the place and the revision that it was made of. -/

namespace Awb.Svn

/-- What a working copy is of. -/
inductive Place
  | trunk
  | branch (name : List Char)
  | tag (name : List Char)

def Place.url (repo : List Char) : Place → List Char
  | trunk => repo ++ "/trunk".toList
  | branch name => repo ++ "/branches/".toList ++ name
  | tag name => repo ++ "/tags/".toList ++ name

def Place.Legal : Place → Prop
  | trunk => True
  | branch name | tag name => name ≠ [] ∧ '/' ∉ name

def Place.hasRevision : Place → Prop
  | trunk | branch _ => True
  | tag _ => False

/-- Reading back the tag gives the same place. -/
def ReadsBack (svn : Subversion) (repo : List Char) (place : Place) (rev : Nat) : Prop :=
  let url := place.url repo
  let tag := baselineTag none url rev
  svn.getVersionUrl url tag = some url ∧
    (place.hasRevision → getRevisionNumber tag = some (revision rev))

variable {svn : Subversion} {repo url version name : List Char} {rev : Nat} {place : Place}

/-! ### Where the repository is -/

/-- No part of the URL of the repository, other than its scheme, is named like the directories of
branches and tags. -/
def Clean (repo : List Char) : Prop :=
  "branches".toList ∉ (parts repo).tail ∧ "tags".toList ∉ (parts repo).tail

theorem length_cutInner (name url : List Char) :
    (parts (cutInner name url)).length + (if hasInner name url then 2 else 0) ≤
      (parts url).length := by
  split_ifs with h
  · obtain ⟨ps, rest, hat, hrest⟩ := exists_at_of_hasInner h
    have hlength := List.length_pos_iff.mpr hrest
    rw [hat.parts_cutInner hrest, hat.split, List.length_append, List.length_cons]
    omega
  · rw [cutInner_of_not h, Nat.add_zero]

theorem stripTrunk_trunk : stripTrunk (url ++ "/trunk".toList) = url := by
  have hparts : parts (url ++ "/trunk".toList) = parts url ++ ["trunk".toList] := parts_slash
  have htail : (parts (url ++ "/trunk".toList)).tail = (parts url).tail ++ ["trunk".toList] := by
    rw [hparts, List.tail_append_of_ne_nil parts_ne_nil]
  rw [stripTrunk, htail, if_pos List.getLast?_concat, hparts, List.dropLast_concat, join_parts]

/-! ### URLs that end with `trunk` -/

theorem getRepositoryUrl_trunk : getRepositoryUrl (url ++ "/trunk".toList) =
    cutInner "tags".toList (cutInner "branches".toList url) := by
  rw [getRepositoryUrl, stripTrunk_trunk]

theorem getVersionUrl_trunk_of_inner (hslash : '/' ∉ version)
    (h : hasInner "branches".toList url ∨ hasInner "tags".toList url) :
    svn.getVersionUrl (url ++ "/trunk".toList) version ≠ some (url ++ "/trunk".toList) := by
  intro hurl
  have hparts : parts (url ++ "/trunk".toList) = parts url ++ ["trunk".toList] := parts_slash
  have hlength : (parts url).length ≤
      (parts (getRepositoryUrl (url ++ "/trunk".toList))).length + 1 := by
    rcases getVersionUrl_parts hslash hurl with hu | ⟨subdir, hu⟩
    · have hlen := congrArg List.length (hparts.symm.trans hu)
      simp only [List.length_append, List.length_singleton] at hlen
      omega
    · have hlen := congrArg List.length (hparts.symm.trans hu)
      simp only [List.length_append, List.length_cons] at hlen
      omega
  rw [getRepositoryUrl_trunk] at hlength
  have hbranches := length_cutInner "branches".toList url
  have htags := length_cutInner "tags".toList (cutInner "branches".toList url)
  by_cases hinner : hasInner "branches".toList url
  · rw [if_pos hinner] at hbranches
    split_ifs at htags <;> omega
  · rw [if_neg hinner] at hbranches
    rw [cutInner_of_not hinner] at htags hlength
    rw [if_pos (h.resolve_left hinner)] at htags
    omega

theorem getVersionUrl_trunk_of_not (hsvn : svn.LiteralWords)
    (hbranches : ¬ hasInner "branches".toList url) (htags : ¬ hasInner "tags".toList url)
    (hv : isWord (versionName version)) (hhead : versionName version ≠ "HEAD".toList) :
    svn.getVersionUrl (url ++ "/trunk".toList) version = some (url ++ "/trunk".toList) ↔
      svn.NotFound (versionName version) url := by
  have hrepo : getRepositoryUrl (url ++ "/trunk".toList) = url := by
    rw [getRepositoryUrl_trunk, cutInner_of_not hbranches, cutInner_of_not htags]
  rw [Subversion.getVersionUrl, hrepo, Subversion.NotFound]
  by_cases hzero : versionName version = "0".toList
  · have hnot : ¬ isSearched (versionName version) = true := by
      rw [isSearched_of_isWord hv]
      exact fun h => h.1 hzero
    rw [if_neg hnot]
    simp only [hzero, true_or]
  · have hsearched : isSearched (versionName version) = true :=
      (isSearched_of_isWord hv).mpr ⟨hzero, hhead⟩
    rw [if_pos hsearched, search_eq_trunk, notFound_iff_listed hsvn hv,
      notFound_iff_listed hsvn hv]
    simp only [hzero, false_or]

theorem inner_trunk : hasInner name (url ++ "/trunk".toList) = true ↔ name ∈ (parts url).tail := by
  have hparts : parts (url ++ "/trunk".toList) = parts url ++ ["trunk".toList] := parts_slash
  rw [hasInner_iff, hparts, List.tail_append_of_ne_nil parts_ne_nil, List.dropLast_concat]

/-- The name behind a last part. -/
theorem nameAfter_trunk (hmem : name ∈ (parts url).tail) (hinner : ¬ hasInner name url) :
    nameAfter name (url ++ "/trunk".toList) = some "trunk".toList := by
  obtain ⟨ps, rest, hat⟩ := exists_at hmem
  have hrest : rest = [] := by
    by_contra hne
    exact hinner (hat.hasInner hne)
  subst hrest
  have hsplit : parts (url ++ "/trunk".toList) = ps ++ name :: ["trunk".toList] := by
    have hparts : parts (url ++ "/trunk".toList) = parts url ++ ["trunk".toList] := parts_slash
    rw [hparts, hat.split, List.append_assoc]
    rfl
  exact At.nameAfter ⟨hsplit, hat.before, hat.first⟩ (by decide)

/-- The version that `get_version_url` looks for in a working copy of a trunk. -/
def trunkVersion (repo : List Char) (rev : Nat) : List Char :=
  if (parts repo).tail.contains "branches".toList then "trunk".toList else revision rev

theorem baselineTag_trunk (rev : Nat) (htags : "tags".toList ∉ (parts url).tail)
    (hbranches : ¬ hasInner "branches".toList url) :
    versionName (baselineTag none (url ++ "/trunk".toList) rev) = trunkVersion url rev ∧
      getRevisionNumber (baselineTag none (url ++ "/trunk".toList) rev) = some (revision rev) := by
  have htag : ¬ isTagUrl (url ++ "/trunk".toList) = true := fun h => htags (inner_trunk.mp h)
  rw [baselineTag, if_neg htag, trunkVersion]
  by_cases hbranch : "branches".toList ∈ (parts url).tail
  · have hin : isBranchUrl (url ++ "/trunk".toList) = true := inner_trunk.mpr hbranch
    rw [if_pos hin, if_pos (List.contains_iff_mem.mpr hbranch), branchNameFromUrl,
      nameAfter_trunk hbranch hbranches, Option.getD_some]
    exact ⟨versionName_branch.trans (if_pos (by decide)), getRevisionNumber_branch⟩
  · have hnot : ¬ isBranchUrl (url ++ "/trunk".toList) = true := fun h =>
      hbranch (inner_trunk.mp h)
    rw [if_neg hnot, if_neg (mt List.contains_iff_mem.mp hbranch), Option.getD_none]
    exact ⟨versionName_of_isWord (isWord_of_isNumber (isNumber_revision rev)),
      getRevisionNumber_revision⟩

theorem trunkVersion_word (url : List Char) (rev : Nat) : isWord (trunkVersion url rev) ∧
    trunkVersion url rev ≠ "HEAD".toList := by
  rw [trunkVersion]
  split_ifs
  · decide
  · refine ⟨isWord_of_isNumber (isNumber_revision rev), ?_⟩
    intro h
    have hnumber := isNumber_revision rev
    rw [h] at hnumber
    exact absurd hnumber (by decide)

/-- A working copy of a trunk, also of one that is a branch. -/
theorem readsBack_trunk_iff (url : List Char) (rev : Nat) (hsvn : svn.LiteralWords) :
    (svn.getVersionUrl (url ++ "/trunk".toList) (baselineTag none (url ++ "/trunk".toList) rev) =
        some (url ++ "/trunk".toList) ∧
      getRevisionNumber (baselineTag none (url ++ "/trunk".toList) rev) = some (revision rev)) ↔
    "tags".toList ∉ (parts url).tail ∧ ¬ hasInner "branches".toList url ∧
      svn.NotFound (trunkVersion url rev) url := by
  constructor
  · rintro ⟨hurl, hrev⟩
    have hbranches : ¬ hasInner "branches".toList url := fun h =>
      getVersionUrl_trunk_of_inner slash_baselineTag (Or.inl h) hurl
    have hinner : ¬ hasInner "tags".toList url := fun h =>
      getVersionUrl_trunk_of_inner slash_baselineTag (Or.inr h) hurl
    have htags : "tags".toList ∉ (parts url).tail := by
      intro h
      have htag : baselineTag none (url ++ "/trunk".toList) rev = "trunk".toList := by
        have hin : isTagUrl (url ++ "/trunk".toList) = true := inner_trunk.mpr h
        rw [baselineTag, if_pos hin, tagNameFromUrl, nameAfter_trunk h hinner, Option.getD_some]
      rw [htag] at hrev
      cases hrev
    obtain ⟨hversion, -⟩ := baselineTag_trunk rev htags hbranches
    obtain ⟨hword, hhead⟩ := trunkVersion_word url rev
    refine ⟨htags, hbranches, ?_⟩
    rw [← hversion] at hword hhead
    have hiff := getVersionUrl_trunk_of_not hsvn hbranches hinner hword hhead
    rw [hversion] at hiff
    exact hiff.mp hurl
  · rintro ⟨htags, hbranches, hfound⟩
    have hinner : ¬ hasInner "tags".toList url := fun h =>
      htags (List.mem_of_mem_dropLast (hasInner_iff.mp h))
    obtain ⟨hversion, hrev⟩ := baselineTag_trunk rev htags hbranches
    obtain ⟨hword, hhead⟩ := trunkVersion_word url rev
    rw [← hversion] at hword hhead
    have hiff := getVersionUrl_trunk_of_not hsvn hbranches hinner hword hhead
    rw [hversion] at hiff
    exact ⟨hiff.mpr hfound, hrev⟩

/-! ### URLs of branches and tags -/

theorem not_hasInner_of_clean (h : Clean repo) :
    ¬ hasInner "branches".toList repo ∧ ¬ hasInner "tags".toList repo :=
  ⟨fun hin => h.1 (List.mem_of_mem_dropLast (hasInner_iff.mp hin)),
    fun hin => h.2 (List.mem_of_mem_dropLast (hasInner_iff.mp hin))⟩

/-- The parts of a URL with one directory and one name behind the repository. -/
theorem parts_two (repo : List Char) {subdir : List Char} (hsubdir : '/' ∉ subdir)
    (hname : '/' ∉ name) :
    parts (repo ++ '/' :: subdir ++ '/' :: name) = parts repo ++ [subdir, name] := by
  rw [parts_slash, parts_slash, parts_single hsubdir, parts_single hname, List.append_assoc]
  rfl

theorem stripTrunk_of_ne {subdir : List Char} (hsubdir : '/' ∉ subdir) (hname : '/' ∉ name)
    (htrunk : name ≠ "trunk".toList) : stripTrunk (repo ++ '/' :: subdir ++ '/' :: name) =
      repo ++ '/' :: subdir ++ '/' :: name := by
  have htail : (parts (repo ++ '/' :: subdir ++ '/' :: name)).tail =
      (parts repo).tail ++ [subdir] ++ [name] := by
    rw [parts_two repo hsubdir hname, List.tail_append_of_ne_nil parts_ne_nil, List.append_assoc]
    rfl
  rw [stripTrunk, htail, List.getLast?_concat, if_neg]
  exact fun h => htrunk (Option.some.inj h)

/-- When a version is at this URL, nothing of the URL of the repository has been cut away. -/
theorem parts_getRepositoryUrl {subdir : List Char} (hsubdir : '/' ∉ subdir) (hname : '/' ∉ name)
    (htrunk : name ≠ "trunk".toList) (hslash : '/' ∉ version)
    (h : svn.getVersionUrl (repo ++ '/' :: subdir ++ '/' :: name) version =
      some (repo ++ '/' :: subdir ++ '/' :: name)) :
    parts (getRepositoryUrl (repo ++ '/' :: subdir ++ '/' :: name)) = parts repo := by
  have hparts := parts_two repo hsubdir hname
  rcases getVersionUrl_parts hslash h with hu | ⟨subdir', hu⟩
  · have hlast := congrArg List.getLast? (hparts.symm.trans hu)
    rw [List.getLast?_concat, List.getLast?_append] at hlast
    exact absurd (Option.some.inj hlast) htrunk
  · exact (List.append_inj' (hparts.symm.trans hu) rfl).1.symm

variable {ps rest : List (List Char)}

theorem at_two {marker subdir : List Char} (hsubdir : '/' ∉ subdir) (hname : '/' ∉ name)
    (hmarker : marker ∉ (parts repo).tail) (heq : marker = subdir) :
    At marker (repo ++ '/' :: subdir ++ '/' :: name) (parts repo) [name] :=
  ⟨by rw [parts_two repo hsubdir hname, heq], parts_ne_nil, hmarker⟩

theorem getRepositoryUrl_of_clean {subdir : List Char} (h : Clean repo)
    (hsubdir : subdir = "branches".toList ∨ subdir = "tags".toList) (hname : '/' ∉ name)
    (htrunk : name ≠ "trunk".toList) :
    getRepositoryUrl (repo ++ '/' :: subdir ++ '/' :: name) = repo := by
  have hslash : '/' ∉ subdir := by
    rcases hsubdir with rfl | rfl <;> decide
  rw [getRepositoryUrl, stripTrunk_of_ne hslash hname htrunk]
  rcases hsubdir with rfl | rfl
  · have hcut := (at_two hslash hname h.1 rfl).parts_cutInner (List.cons_ne_nil name [])
    rw [parts_injective hcut, cutInner_of_not (not_hasInner_of_clean h).2]
  · have hnot : ¬ hasInner "branches".toList (repo ++ '/' :: "tags".toList ++ '/' :: name) := by
      rw [hasInner_iff, parts_two repo hslash hname, List.tail_append_of_ne_nil parts_ne_nil,
        List.dropLast_append_of_ne_nil (List.cons_ne_nil _ _)]
      intro hmem
      rcases List.mem_append.mp hmem with hmem | hmem
      · exact h.1 hmem
      · exact absurd (List.mem_singleton.mp hmem) (by decide)
    have hcut := (at_two hslash hname h.2 rfl).parts_cutInner (List.cons_ne_nil name [])
    rw [cutInner_of_not hnot, parts_injective hcut]

theorem slash_branches : '/' ∉ "branches".toList := by decide

theorem slash_tags : '/' ∉ "tags".toList := by decide

/-- The URL of a branch, when the repository is found again. -/
theorem branches_of_parts (hname : '/' ∉ name) (htrunk : name ≠ "trunk".toList)
    (h : parts (getRepositoryUrl (repo ++ '/' :: "branches".toList ++ '/' :: name)) = parts repo) :
    "branches".toList ∉ (parts repo).tail ∧ ¬ hasInner "tags".toList repo := by
  have hparts := parts_two repo slash_branches hname
  rw [getRepositoryUrl, stripTrunk_of_ne slash_branches hname htrunk] at h
  have hmem : "branches".toList ∈
      (parts (repo ++ '/' :: "branches".toList ++ '/' :: name)).tail := by
    rw [hparts, List.tail_append_of_ne_nil parts_ne_nil]
    exact List.mem_append_right _ List.mem_cons_self
  obtain ⟨ps, rest, hat⟩ := exists_at hmem
  have hsplit := hat.split.symm.trans hparts
  have hinner : hasInner "branches".toList (repo ++ '/' :: "branches".toList ++ '/' :: name) := by
    rw [hasInner_iff, hparts, List.tail_append_of_ne_nil parts_ne_nil,
      List.dropLast_append_of_ne_nil (List.cons_ne_nil _ _)]
    exact List.mem_append_right _ List.mem_cons_self
  have hrest : rest ≠ [] := by
    rintro rfl
    rw [hasInner_iff, hat.tail, List.dropLast_concat] at hinner
    exact hat.first hinner
  have hcut := hat.parts_cutInner hrest
  have htags := length_cutInner "tags".toList
    (cutInner "branches".toList (repo ++ '/' :: "branches".toList ++ '/' :: name))
  rw [h, hcut] at htags
  have hlength := congrArg List.length hsplit
  have hpos := List.length_pos_iff.mpr hrest
  simp only [List.length_append, List.length_cons, List.length_nil] at hlength
  have hps : ps = parts repo := by
    refine List.append_inj_left hsplit ?_
    split_ifs at htags <;> omega
  subst hps
  refine ⟨hat.first, ?_⟩
  rw [parts_injective hcut] at htags
  intro hin
  rw [if_pos hin] at htags
  omega

/-- The URL of a tag, when the repository is found again. -/
theorem clean_of_parts (hname : '/' ∉ name) (htrunk : name ≠ "trunk".toList)
    (h : parts (getRepositoryUrl (repo ++ '/' :: "tags".toList ++ '/' :: name)) = parts repo) :
    Clean repo := by
  have hparts := parts_two repo slash_tags hname
  rw [getRepositoryUrl, stripTrunk_of_ne slash_tags hname htrunk] at h
  have hnot : ¬ hasInner "branches".toList (repo ++ '/' :: "tags".toList ++ '/' :: name) := by
    intro hinner
    obtain ⟨ps, rest, hat, hrest⟩ := exists_at_of_hasInner hinner
    have hsplit := hat.split.symm.trans hparts
    have htags := length_cutInner "tags".toList
      (cutInner "branches".toList (repo ++ '/' :: "tags".toList ++ '/' :: name))
    rw [h, hat.parts_cutInner hrest] at htags
    have hlength := congrArg List.length hsplit
    have hpos := List.length_pos_iff.mpr hrest
    simp only [List.length_append, List.length_cons, List.length_nil] at hlength
    have hright := List.append_inj_right hsplit (by split_ifs at htags <;> omega)
    exact absurd (List.cons.inj hright).1 (by decide)
  have hbranches : "branches".toList ∉ (parts repo).tail := by
    intro hmem
    refine hnot (hasInner_iff.mpr ?_)
    rw [hparts, List.tail_append_of_ne_nil parts_ne_nil,
      List.dropLast_append_of_ne_nil (List.cons_ne_nil _ _)]
    exact List.mem_append_left _ hmem
  rw [cutInner_of_not hnot] at h
  have hinner : hasInner "tags".toList (repo ++ '/' :: "tags".toList ++ '/' :: name) := by
    rw [hasInner_iff, hparts, List.tail_append_of_ne_nil parts_ne_nil,
      List.dropLast_append_of_ne_nil (List.cons_ne_nil _ _)]
    exact List.mem_append_right _ List.mem_cons_self
  obtain ⟨ps, rest, hat, hrest⟩ := exists_at_of_hasInner hinner
  rw [hat.parts_cutInner hrest] at h
  subst h
  exact ⟨hbranches, hat.first⟩

theorem readsBack_branch_iff (hsvn : svn.LiteralWords) (hne : name ≠ []) (hname : '/' ∉ name)
    (htrunk : name ≠ "trunk".toList) :
    (svn.getVersionUrl (repo ++ '/' :: "branches".toList ++ '/' :: name)
          (baselineTag none (repo ++ '/' :: "branches".toList ++ '/' :: name) rev) =
        some (repo ++ '/' :: "branches".toList ++ '/' :: name) ∧
      getRevisionNumber (baselineTag none (repo ++ '/' :: "branches".toList ++ '/' :: name) rev) =
        some (revision rev)) ↔
    Clean repo ∧ isWord name ∧ name ≠ "HEAD".toList ∧ name ≠ "0".toList ∧
      ¬ svn.Listed name (repo ++ "/tags".toList) ∧
      svn.Listed name (repo ++ "/branches".toList) := by
  have hparts := parts_two repo slash_branches hname
  have htail : (parts (repo ++ '/' :: "branches".toList ++ '/' :: name)).tail.dropLast =
      (parts repo).tail ++ ["branches".toList] := by
    rw [hparts, List.tail_append_of_ne_nil parts_ne_nil,
      List.dropLast_append_of_ne_nil (List.cons_ne_nil _ _)]
    rfl
  have hbranch : isBranchUrl (repo ++ '/' :: "branches".toList ++ '/' :: name) = true := by
    rw [isBranchUrl, hasInner_iff, htail]
    exact List.mem_append_right _ List.mem_cons_self
  -- the tag in a clean repository
  have htag : Clean repo → baselineTag none (repo ++ '/' :: "branches".toList ++ '/' :: name) rev =
      name ++ ':' :: revision rev := by
    intro hclean
    have hnot : ¬ isTagUrl (repo ++ '/' :: "branches".toList ++ '/' :: name) = true := by
      rw [isTagUrl, hasInner_iff, htail]
      intro hmem
      rcases List.mem_append.mp hmem with hmem | hmem
      · exact hclean.2 hmem
      · exact absurd (List.mem_singleton.mp hmem) (by decide)
    have hafter := (at_two slash_branches hname hclean.1 rfl).nameAfter hne
    rw [baselineTag, if_neg hnot, if_pos hbranch, branchNameFromUrl, hafter, Option.getD_some]
  constructor
  · rintro ⟨hurl, hrev⟩
    obtain ⟨hbranches, hinner⟩ := branches_of_parts hname htrunk
      (parts_getRepositoryUrl slash_branches hname htrunk slash_baselineTag hurl)
    have htags : "tags".toList ∉ (parts repo).tail := by
      intro hmem
      obtain ⟨ps, rest, hat⟩ := exists_at hmem
      obtain rfl : rest = [] := by
        by_contra hrest
        exact hinner (hat.hasInner hrest)
      have hat' : At "tags".toList (repo ++ '/' :: "branches".toList ++ '/' :: name) ps
          ["branches".toList, name] := by
        refine ⟨?_, hat.before, hat.first⟩
        rw [hparts, hat.split, List.append_assoc]
        rfl
      have hin : isTagUrl (repo ++ '/' :: "branches".toList ++ '/' :: name) = true :=
        hat'.hasInner (List.cons_ne_nil _ _)
      rw [baselineTag, if_pos hin, tagNameFromUrl, hat'.nameAfter (by decide),
        Option.getD_some] at hrev
      cases hrev
    have hclean : Clean repo := ⟨hbranches, htags⟩
    have hrepo := getRepositoryUrl_of_clean hclean (Or.inl rfl) hname htrunk
    rw [htag hclean, Subversion.getVersionUrl, hrepo, versionName_branch] at hurl
    split_ifs at hurl with hword hsearched hsearched
    · obtain ⟨hzero, hhead⟩ := (isSearched_of_isWord hword).mp hsearched
      obtain ⟨hnotTag, hfound, -⟩ := search_eq_branch.mp hurl
      exact ⟨hclean, hword, hhead, hzero, (notFound_iff_listed hsvn hword).mp hnotTag,
        (found_iff_listed hsvn hword).mp hfound⟩
    · exact absurd (Option.some.inj hurl).symm branch_ne_trunk
    · obtain ⟨-, -, heq⟩ := search_eq_branch.mp hurl
      have hlength := congrArg List.length heq
      simp at hlength
    · exact absurd (Option.some.inj hurl).symm branch_ne_trunk
  · rintro ⟨hclean, hword, hhead, hzero, hnotTag, hlisted⟩
    have hrepo := getRepositoryUrl_of_clean hclean (Or.inl rfl) hname htrunk
    rw [htag hclean, Subversion.getVersionUrl, hrepo, versionName_branch, if_pos hword,
      if_pos ((isSearched_of_isWord hword).mpr ⟨hzero, hhead⟩)]
    exact ⟨search_eq_branch.mpr ⟨(notFound_iff_listed hsvn hword).mpr hnotTag,
      (found_iff_listed hsvn hword).mpr hlisted, rfl⟩, getRevisionNumber_branch⟩

theorem versionName_eq_self :
    versionName name = name ↔ csnName name = none ∧ colonName name = none := by
  rw [versionName]
  cases hcsn : csnName name with
  | some name' =>
    obtain ⟨csn, number, heq, -⟩ := csnName_some hcsn
    simp only [reduceCtorEq, false_and, iff_false]
    rintro rfl
    have hlength := congrArg List.length heq
    simp only [List.length_append, List.length_cons] at hlength
    omega
  | none =>
    cases hcolon : colonName name with
    | none => simp only [Option.getD_none, and_self]
    | some name' =>
      obtain ⟨number, heq, -⟩ := colonName_some hcolon
      simp only [Option.getD_some, reduceCtorEq, and_false, iff_false]
      rintro rfl
      have hlength := congrArg List.length heq
      simp only [List.length_append, List.length_cons] at hlength
      omega

theorem readsBack_tag_iff (hne : name ≠ []) (hname : '/' ∉ name) (htrunk : name ≠ "trunk".toList) :
    svn.getVersionUrl (repo ++ '/' :: "tags".toList ++ '/' :: name)
          (baselineTag none (repo ++ '/' :: "tags".toList ++ '/' :: name) rev) =
        some (repo ++ '/' :: "tags".toList ++ '/' :: name) ↔
    Clean repo ∧ csnName name = none ∧ colonName name = none ∧ name ≠ "HEAD".toList ∧
      name ≠ "0".toList ∧ svn.found name (svn.list (repo ++ "/tags".toList)) = some true := by
  have hparts := parts_two repo slash_tags hname
  have htag : Clean repo →
      baselineTag none (repo ++ '/' :: "tags".toList ++ '/' :: name) rev = name := by
    intro hclean
    have hat := at_two slash_tags hname hclean.2 rfl
    have hin : isTagUrl (repo ++ '/' :: "tags".toList ++ '/' :: name) = true :=
      hat.hasInner (List.cons_ne_nil _ _)
    rw [baselineTag, if_pos hin, tagNameFromUrl, hat.nameAfter hne, Option.getD_some]
  constructor
  · intro hurl
    have hclean : Clean repo := clean_of_parts hname htrunk
      (parts_getRepositoryUrl slash_tags hname htrunk slash_baselineTag hurl)
    have hrepo := getRepositoryUrl_of_clean hclean (Or.inr rfl) hname htrunk
    rw [htag hclean, Subversion.getVersionUrl, hrepo] at hurl
    split_ifs at hurl with hsearched
    · obtain ⟨hfound, heq⟩ := search_eq_tag.mp hurl
      obtain ⟨hcsn, hcolon⟩ := versionName_eq_self.mp heq
      rw [heq] at hfound hsearched
      simp only [isSearched, Bool.and_eq_true, decide_eq_true_eq] at hsearched
      exact ⟨hclean, hcsn, hcolon, hsearched.2, hsearched.1.2, hfound⟩
    · exact absurd (Option.some.inj hurl).symm tag_ne_trunk
  · rintro ⟨hclean, hcsn, hcolon, hhead, hzero, hfound⟩
    have hrepo := getRepositoryUrl_of_clean hclean (Or.inr rfl) hname htrunk
    have heq : versionName name = name := versionName_eq_self.mpr ⟨hcsn, hcolon⟩
    have hsearched : isSearched name = true := by
      simp only [isSearched, Bool.and_eq_true, decide_eq_true_eq]
      exact ⟨⟨hne, hzero⟩, hhead⟩
    rw [htag hclean, Subversion.getVersionUrl, hrepo, heq, if_pos hsearched]
    exact search_eq_tag.mpr ⟨hfound, rfl⟩

/-! ### Every place -/

/-- Exactly when the tag leads back. -/
def Subversion.Returns (svn : Subversion) (repo : List Char) (rev : Nat) : Place → Prop
  | .trunk => "tags".toList ∉ (parts repo).tail ∧ ¬ hasInner "branches".toList repo ∧
      svn.NotFound (trunkVersion repo rev) repo
  | .branch name => Clean repo ∧
      if name = "trunk".toList then svn.NotFound name (repo ++ "/branches".toList)
      else isWord name ∧ name ≠ "HEAD".toList ∧ name ≠ "0".toList ∧
        ¬ svn.Listed name (repo ++ "/tags".toList) ∧ svn.Listed name (repo ++ "/branches".toList)
  | .tag name => Clean repo ∧
      if name = "trunk".toList then svn.NotFound name (repo ++ "/tags".toList)
      else csnName name = none ∧ colonName name = none ∧ name ≠ "HEAD".toList ∧
        name ≠ "0".toList ∧ svn.found name (svn.list (repo ++ "/tags".toList)) = some true

/-- A directory behind the repository, for a trunk that is a branch or a tag. -/
theorem inner_subdir {subdir : List Char} (hsubdir : '/' ∉ subdir) :
    hasInner name (repo ++ '/' :: subdir) = true ↔ name ∈ (parts repo).tail := by
  rw [hasInner_iff, parts_slash, parts_single hsubdir, List.tail_append_of_ne_nil parts_ne_nil,
    List.dropLast_concat]

theorem mem_tail_subdir {subdir : List Char} (hsubdir : '/' ∉ subdir) :
    name ∈ (parts (repo ++ '/' :: subdir)).tail ↔ name ∈ (parts repo).tail ∨ name = subdir := by
  rw [parts_slash, parts_single hsubdir, List.tail_append_of_ne_nil parts_ne_nil, List.mem_append,
    List.mem_singleton]

theorem readsBack_branch_trunk_iff (hsvn : svn.LiteralWords) :
    ReadsBack svn repo (.branch "trunk".toList) rev ↔
      Clean repo ∧ svn.NotFound "trunk".toList (repo ++ "/branches".toList) := by
  have hurl : Place.url repo (.branch "trunk".toList) =
      (repo ++ '/' :: "branches".toList) ++ "/trunk".toList := by
    rw [Place.url, List.append_assoc, List.append_assoc]
    rfl
  have hbranches : hasInner "branches".toList (repo ++ '/' :: "branches".toList) = true ↔
      "branches".toList ∈ (parts repo).tail := inner_subdir slash_branches
  have htags : "tags".toList ∈ (parts (repo ++ '/' :: "branches".toList)).tail ↔
      "tags".toList ∈ (parts repo).tail ∨ "tags".toList = "branches".toList :=
    mem_tail_subdir slash_branches
  have hversion : trunkVersion (repo ++ '/' :: "branches".toList) rev = "trunk".toList :=
    if_pos (List.contains_iff_mem.mpr ((mem_tail_subdir slash_branches).mpr (Or.inr rfl)))
  have hiff := readsBack_trunk_iff (repo ++ '/' :: "branches".toList) rev hsvn
  rw [hversion, hbranches, htags] at hiff
  have hclean : Clean repo ↔ "branches".toList ∉ (parts repo).tail ∧
    "tags".toList ∉ (parts repo).tail := Iff.rfl
  have hne : "tags".toList ≠ "branches".toList := by decide
  rw [ReadsBack, hurl, hclean]
  simp only [Place.hasRevision, forall_const]
  rw [hiff]
  simp only [hne, or_false]
  constructor
  · rintro ⟨htag, hbranch, hfound⟩
    exact ⟨⟨hbranch, htag⟩, hfound⟩
  · rintro ⟨⟨hbranch, htag⟩, hfound⟩
    exact ⟨htag, hbranch, hfound⟩

theorem readsBack_tag_trunk_iff (hsvn : svn.LiteralWords) :
    ReadsBack svn repo (.tag "trunk".toList) rev ↔
      Clean repo ∧ svn.NotFound "trunk".toList (repo ++ "/tags".toList) := by
  have hurl : Place.url repo (.tag "trunk".toList) =
      (repo ++ '/' :: "tags".toList) ++ "/trunk".toList := by
    rw [Place.url, List.append_assoc, List.append_assoc]
    rfl
  have hbranches : hasInner "branches".toList (repo ++ '/' :: "tags".toList) = true ↔
      "branches".toList ∈ (parts repo).tail := inner_subdir slash_tags
  have htags : hasInner "tags".toList (repo ++ '/' :: "tags".toList) = true ↔
      "tags".toList ∈ (parts repo).tail := inner_subdir slash_tags
  have hmem : "tags".toList ∈ (parts (repo ++ '/' :: "tags".toList)).tail :=
    (mem_tail_subdir slash_tags).mpr (Or.inr rfl)
  have hreads : ReadsBack svn repo (.tag "trunk".toList) rev ↔
      svn.getVersionUrl ((repo ++ '/' :: "tags".toList) ++ "/trunk".toList)
        (baselineTag none ((repo ++ '/' :: "tags".toList) ++ "/trunk".toList) rev) =
      some ((repo ++ '/' :: "tags".toList) ++ "/trunk".toList) := by
    rw [ReadsBack, hurl]
    simp only [Place.hasRevision, false_implies, and_true]
  rw [hreads]
  have hiff : Clean repo →
      (svn.getVersionUrl ((repo ++ '/' :: "tags".toList) ++ "/trunk".toList)
        (baselineTag none ((repo ++ '/' :: "tags".toList) ++ "/trunk".toList) rev) =
        some ((repo ++ '/' :: "tags".toList) ++ "/trunk".toList) ↔
      svn.NotFound "trunk".toList (repo ++ "/tags".toList)) := by
    intro hclean
    have hinner := mt htags.mp hclean.2
    have hin : isTagUrl ((repo ++ '/' :: "tags".toList) ++ "/trunk".toList) = true :=
      inner_trunk.mpr hmem
    rw [baselineTag, if_pos hin, tagNameFromUrl, nameAfter_trunk hmem hinner, Option.getD_some]
    exact getVersionUrl_trunk_of_not hsvn (mt hbranches.mp hclean.1) hinner (by decide) (by decide)
  constructor
  · intro h
    have hclean : Clean repo := by
      refine ⟨fun hmem => ?_, fun hmem => ?_⟩
      · exact getVersionUrl_trunk_of_inner slash_baselineTag (Or.inl (hbranches.mpr hmem)) h
      · exact getVersionUrl_trunk_of_inner slash_baselineTag (Or.inr (htags.mpr hmem)) h
    exact ⟨hclean, (hiff hclean).mp h⟩
  · rintro ⟨hclean, hfound⟩
    exact (hiff hclean).mpr hfound

/-- The tag of a working copy leads back to it if and only if no other tag or branch is found for
it: a branch must be a word, and a tag must not look like a change set or a revision. -/
theorem baselineTag_readsBack_iff (hsvn : svn.LiteralWords) (hplace : place.Legal) :
    ReadsBack svn repo place rev ↔ svn.Returns repo rev place := by
  cases place with
  | trunk =>
    rw [ReadsBack]
    simp only [Place.hasRevision, forall_const]
    exact readsBack_trunk_iff repo rev hsvn
  | branch name =>
    obtain ⟨hne, hname⟩ := hplace
    rw [Subversion.Returns]
    split_ifs with htrunk
    · subst htrunk
      exact readsBack_branch_trunk_iff hsvn
    · have hurl : Place.url repo (.branch name) =
          repo ++ '/' :: "branches".toList ++ '/' :: name := by
        rw [Place.url, List.append_assoc, List.append_assoc]
        rfl
      rw [ReadsBack, hurl]
      simp only [Place.hasRevision, forall_const]
      exact readsBack_branch_iff hsvn hne hname htrunk
  | tag name =>
    obtain ⟨hne, hname⟩ := hplace
    rw [Subversion.Returns]
    split_ifs with htrunk
    · subst htrunk
      exact readsBack_tag_trunk_iff hsvn
    · have hurl : Place.url repo (.tag name) = repo ++ '/' :: "tags".toList ++ '/' :: name := by
        rw [Place.url, List.append_assoc, List.append_assoc]
        rfl
      rw [ReadsBack, hurl]
      simp only [Place.hasRevision, false_implies, and_true]
      exact readsBack_tag_iff hne hname htrunk

/-- A repository with the given tags and branches; words and `.` are patterns, everything else is
taken as it is. -/
def exampleSvn (repo : List Char) (tags branches : List (List Char)) : Subversion where
  list url :=
    if url = repo ++ "/tags".toList then tags.map (· ++ ['/'])
    else if url = repo ++ "/branches".toList then branches.map (· ++ ['/']) else []
  matchLine version line :=
    some (version.length < line.length &&
      ((version ++ ['/']).zip line).all fun (p, c) => p = c || p = '.')

/-- A pattern in which only `.` is special. -/
def matchDots : List Char → List Char → Bool
  | [], _ => true
  | p :: ps, c :: cs => (p = c || p = '.') && matchDots ps cs
  | _ :: _, [] => false

/-- A repository that lists the given tags and branches. -/
def dotSubversion (repo : List Char) (tags branches : List (List Char)) : Subversion where
  list url :=
    if url = repo ++ "/tags".toList then tags.map (· ++ ['/'])
    else if url = repo ++ "/branches".toList then branches.map (· ++ ['/']) else []
  matchLine version line := some (matchDots (version ++ ['/']) line)

theorem matchDots_eq {pattern line : List Char} (h : '.' ∉ pattern) :
    matchDots pattern line = decide (pattern <+: line) := by
  induction pattern generalizing line with
  | nil => simp [matchDots]
  | cons p ps ih =>
    obtain ⟨hp, hps⟩ := List.ne_and_not_mem_of_not_mem_cons h
    cases line with
    | nil => simp [matchDots]
    | cons c cs =>
      simp only [matchDots, ih hps, hp.symm, decide_false, Bool.or_false, List.cons_prefix_cons,
        Bool.decide_and]

theorem dotSubversion_literalWords (repo : List Char) (tags branches : List (List Char)) :
    (dotSubversion repo tags branches).LiteralWords := by
  intro version line hword
  have hdot : '.' ∉ version ++ ['/'] := by
    intro hmem
    rcases List.mem_append.mp hmem with hmem | hmem
    · exact notMem_of_isWord hword rfl hmem
    · exact absurd (List.mem_singleton.mp hmem) (by decide)
  exact congrArg some (matchDots_eq hdot)

/-- A branch with a plain name. -/
theorem baselineTag_readsBack_main : ReadsBack
    (dotSubversion "svn:x/awb".toList [] ["main".toList]) "svn:x/awb".toList
    (.branch "main".toList) 12 := by
  have hlegal : (Place.branch "main".toList).Legal := ⟨by decide, by decide⟩
  refine (baselineTag_readsBack_iff (dotSubversion_literalWords _ _ _) hlegal).mpr ?_
  refine ⟨⟨by decide, by decide⟩, by decide, by decide, by decide, ?_, ?_⟩
  · rintro ⟨line, hline, -⟩
    cases hline
  · exact ⟨"main/".toList, by decide, by decide⟩

/-- A branch whose name has a dash. -/
theorem not_readsBack_dash : ¬ ReadsBack
    (dotSubversion "svn:x/awb".toList [] ["my-branch".toList]) "svn:x/awb".toList
    (.branch "my-branch".toList) 12 := by
  rintro ⟨h, -⟩
  exact absurd h (by decide)

end Awb.Svn
