import Awb.Lib.Splitting
import Awb.Workspace.SetPath
import Mathlib.Data.List.Perm.Basic
import Mathlib.Data.Multiset.ZeroCons

/-! `remove_path_by_packagename` takes an index of the path in which only directories that exist are
left, and uses it for the list in which the others still have their places. -/

namespace Awb
open SearchPath

/-- An expansion is a directory with this real path. -/
def Expansion.IsAt (fs : FileSystem) (dir : Text) (e : Expansion) : Prop :=
  fs.isDir e.dir = true ∧ fs.realpath e.dir = dir

instance (fs : FileSystem) (dir : Text) : DecidablePred (Expansion.IsAt fs dir) :=
  fun _ => inferInstanceAs (Decidable (_ ∧ _))

/-- One of the expansions of an element is a directory with this real path. -/
def WorkspaceConfig.ExpandsTo (w : WorkspaceConfig) (fs : FileSystem) (fuel : ℕ)
    (element dir : Text) : Prop :=
  ∃ es, w.expansions fuel [element] = some es ∧ ∃ e ∈ es, e.IsAt fs dir

namespace SearchPath.Workspace

/-- Exactly one element is gone, one that the directory is an expansion of. -/
def Removed (fs : FileSystem) (fuel : ℕ) (dir : Text) (w w' : Workspace) : Prop :=
  ∃ k element, w.elements[k]? = some element ∧ w.config.ExpandsTo fs fuel element dir ∧
    w'.elements = w.elements.eraseIdx k

/-- A failure is reported and nothing has changed, or the element of the package is removed. -/
def FailsOrRemoves (w : Workspace) (fs : FileSystem) (packages : List Text → List Text) (fuel : ℕ)
    (location : Option Text) : Prop :=
  ∃ report w', w.removePathByPackagename fs packages fuel location = some (report, w') ∧
    ((report = false ∧ w' = w) ∨ ∃ dir ∈ location, Removed fs fuel dir w w')

/-- How many of the expansions in front of the package's directory exist is the index of an "X"; or
all of them exist, and without the element of the directory no empty one is the last. -/
def Aligned (fs : FileSystem) (dir : Text) (elements : List Text) (es : List Expansion) : Prop :=
  let j := es.findIdx fun e => decide (e.IsAt fs dir)
  ∀ e ∈ es[j]?,
    (∃ x ∈ es[(es.take j).countP (fs.isDir ·.dir)]?, x.origin = none) ∨
      ((∀ b ∈ es.take j, fs.isDir b.dir = true) ∧
        ∀ k ∈ e.origin, (elements.eraseIdx k).getLast? ≠ some [])

/-! ### The text of a search path -/

section elements
variable {separator : Char} {l : List Text} {w : Workspace} {fs : FileSystem} {fuel k : ℕ}

theorem rdropWhile_isEmpty_eq_iff :
    l.rdropWhile List.isEmpty = l ↔ l.getLast? ≠ some [] := by
  rw [List.rdropWhile_eq_self_iff]
  constructor
  · intro h hlast
    obtain ⟨hne, hnil⟩ := List.mem_getLast?_eq_getLast hlast
    exact h hne (by rw [← hnil]; rfl)
  · intro h hne hempty
    exact h (by rw [List.getLast?_eq_some_getLast hne, List.isEmpty_iff.mp hempty])

theorem separator_notMem_elements {part : Text} (h : part ∈ w.elements) : ':' ∉ part :=
  Splitting.notMem_of_mem_splitOn ((List.rdropWhile_prefix _ _).subset h)

/-- A `SEARCHPATH` that is taken for none has one element at most. -/
theorem eraseIdx_unexpandedPath (hk : k < w.elements.length) :
    w.unexpandedPath.eraseIdx k = w.elements.eraseIdx k := by
  unfold unexpandedPath
  split
  · rename_i hfalsy
    have hcases : w.config.searchPath = [] ∨ w.config.searchPath = ['0'] := by
      simpa [Inifile.Perl.falsy] using hfalsy
    rcases hcases with hempty | hzero
    · have hnil : w.elements = [] := by rw [elements, hempty]; rfl
      rw [hnil] at hk
      exact absurd hk (Nat.not_lt_zero k)
    · have hone : w.elements = [['0']] := by rw [elements, hzero]; decide
      rw [hone] at hk ⊢
      obtain rfl : k = 0 := by simpa using hk
      rfl
  · rfl

/-- The element that is missing from a list can be told. -/
theorem getElem?_eq_of_eraseIdx_eq {α : Type*} {l : List α} {i j : ℕ} (hi : i < l.length)
    (hj : j < l.length) (h : l.eraseIdx i = l.eraseIdx j) : l[i]? = l[j]? := by
  have hperm : (l[i] :: l.eraseIdx i).Perm (l[j] :: l.eraseIdx i) :=
    (List.getElem_cons_eraseIdx_perm hi).trans (h ▸ (List.getElem_cons_eraseIdx_perm hj).symm)
  have hcoe : l[i] ::ₘ (l.eraseIdx i : Multiset α) = l[j] ::ₘ (l.eraseIdx i : Multiset α) :=
    Multiset.coe_eq_coe.mpr hperm
  rw [List.getElem?_eq_getElem hi, List.getElem?_eq_getElem hj,
    (Multiset.cons_inj_left _).mp hcoe]

end elements

/-! ### The index of the package -/

section found
variable {fs : FileSystem} {dir : Text} {es before after : List Expansion} {e : Expansion}

/-- The path in the `UnionDir`. -/
def existing (fs : FileSystem) (es : List Expansion) : List Text :=
  (es.filter (fs.isDir ·.dir)).map (fs.realpath ·.dir)

theorem notMem_existing (h : ∀ e ∈ es, ¬ e.IsAt fs dir) : dir ∉ existing fs es := by
  intro hmem
  obtain ⟨e, he, hreal⟩ := List.mem_map.mp hmem
  obtain ⟨he, hdir⟩ := List.mem_filter.mp he
  exact h e he ⟨hdir, hreal⟩

/-- The index counts the directories that exist. -/
theorem findIdx_existing (he : e.IsAt fs dir) (hbefore : ∀ b ∈ before, ¬ b.IsAt fs dir) :
    (existing fs (before ++ e :: after)).findIdx (· = dir) = before.countP (fs.isDir ·.dir) ∧
      before.countP (fs.isDir ·.dir) < (existing fs (before ++ e :: after)).length := by
  have hsplit : existing fs (before ++ e :: after) =
      existing fs before ++ dir :: existing fs after := by
    have hcons : (e :: after).filter (fs.isDir ·.dir) = e :: after.filter (fs.isDir ·.dir) :=
      List.filter_cons_of_pos he.1
    unfold existing
    rw [List.filter_append, hcons, List.map_append, List.map_cons, he.2]
  have hlength : (existing fs before).length = before.countP (fs.isDir ·.dir) := by
    rw [existing, List.length_map, List.countP_eq_length_filter]
  have hnone : (existing fs before).findIdx (· = dir) = (existing fs before).length :=
    List.findIdx_eq_length.mpr fun d hd =>
      decide_eq_false fun heq => notMem_existing hbefore (heq ▸ hd)
  rw [hsplit, List.findIdx_append, hnone, if_neg (Nat.lt_irrefl _), List.findIdx_cons,
    decide_eq_true rfl, cond_true, Nat.zero_add, List.length_append, List.length_cons, ← hlength]
  exact ⟨rfl, by omega⟩

end found

/-! ### What is removed -/

section removed
variable {fs : FileSystem} {packages : List Text → List Text} {fuel k : ℕ} {dir : Text}
  {config : WorkspaceConfig} {w : Workspace} {es before after : List Expansion} {e : Expansion}

theorem eq_of_openConfig (hopen : openConfig fs fuel config = some w) :
    ∃ es, config.expansions fuel w.elements = some es ∧
      w = ⟨config, existing fs es, es.map (·.origin)⟩ := by
  unfold openConfig WorkspaceConfig.rehash at hopen
  obtain ⟨⟨path, epath2path⟩, hrehash, rfl⟩ := Option.map_eq_some_iff.mp hopen
  obtain ⟨es, hes, heq⟩ := Option.map_eq_some_iff.mp hrehash
  obtain ⟨rfl, rfl⟩ := Prod.mk.inj heq
  exact ⟨es, hes, rfl⟩

/-- `set_path` with some of the elements ends, and these are what is in `SEARCHPATH` then. -/
theorem setPath_of_subset (hopen : openConfig fs fuel config = some w) {path : List Text}
    (hpath : path ⊆ w.elements) : ∃ report w', w.setPath fs packages fuel path = some (report, w') ∧
      w'.elements = path.rdropWhile List.isEmpty := by
  obtain ⟨es, hes, hw⟩ := eq_of_openConfig hopen
  have hconfig : w.config = config := by rw [hw]
  have hsubset : (if path.isEmpty then perlSplit ':' config.searchPath else path) ⊆ w.elements := by
    split
    · rw [elements, hconfig]
      exact List.Subset.refl _
    · exact hpath
  have hsome : (config.expansions fuel
      (if path.isEmpty then perlSplit ':' config.searchPath else path)).isSome = true :=
    WorkspaceConfig.isSome_expansions.mpr fun element helement =>
      WorkspaceConfig.isSome_expansions.mp (by rw [hes]; rfl) element (hsubset helement)
  obtain ⟨es', hes'⟩ := Option.isSome_iff_exists.mp hsome
  refine ⟨_, _, by rw [setPath, WorkspaceConfig.rehash, hconfig, hes']; rfl, ?_⟩
  exact perlSplit_join fun part hpart => separator_notMem_elements (hpath hpart)

theorem removed_iff (hk : k < w.elements.length) {w' : Workspace}
    (helements : w'.elements = (w.elements.eraseIdx k).rdropWhile List.isEmpty) :
    Removed fs fuel dir w w' ↔ (w.elements.eraseIdx k).getLast? ≠ some [] ∧
      w.config.ExpandsTo fs fuel w.elements[k] dir := by
  constructor
  · rintro ⟨k', element, hget, hexpands, heq⟩
    obtain ⟨hk', rfl⟩ := List.getElem?_eq_some_iff.mp hget
    rw [helements] at heq
    -- a list that is one element shorter has lost no empty one
    have hlength : ((w.elements.eraseIdx k).rdropWhile List.isEmpty).length =
        (w.elements.eraseIdx k).length := by
      rw [heq, List.length_eraseIdx_of_lt hk', List.length_eraseIdx_of_lt hk]
    have hdrop := (List.rdropWhile_prefix List.isEmpty _).eq_of_length hlength
    have hget' := getElem?_eq_of_eraseIdx_eq hk hk' (hdrop.symm.trans heq)
    rw [List.getElem?_eq_getElem hk, hget] at hget'
    exact ⟨rdropWhile_isEmpty_eq_iff.mp hdrop, Option.some.inj hget' ▸ hexpands⟩
  · rintro ⟨hlast, hexpands⟩
    exact ⟨k, _, List.getElem?_eq_getElem hk, hexpands,
      helements.trans (rdropWhile_isEmpty_eq_iff.mpr hlast)⟩

/-- The call for a package whose directory is in the path. -/
theorem removePathByPackagename_eq
    (hw : w = ⟨config, existing fs (before ++ e :: after), (before ++ e :: after).map (·.origin)⟩)
    (he : e.IsAt fs dir) (hbefore : ∀ b ∈ before, ¬ b.IsAt fs dir) :
    w.removePathByPackagename fs packages fuel (some dir) =
      match (before ++ e :: after)[before.countP (fs.isDir ·.dir)]?.bind (·.origin) with
      | some rindex => w.setPath fs packages fuel (w.unexpandedPath.eraseIdx rindex)
      | none => some (false, w) := by
  have hfind := @findIdx_existing fs dir before after e he hbefore
  have hpath : w.path = existing fs (before ++ e :: after) := by rw [hw]
  have htags : w.epath2path = (before ++ e :: after).map (·.origin) := by rw [hw]
  unfold removePathByPackagename
  simp only [hpath, htags, hfind.1, if_pos hfind.2, List.getElem?_map]
  cases (before ++ e :: after)[before.countP (fs.isDir ·.dir)]? <;> rfl

theorem aligned_iff {elements : List Text} (he : e.IsAt fs dir)
    (hbefore : ∀ b ∈ before, ¬ b.IsAt fs dir) :
    Aligned fs dir elements (before ++ e :: after) ↔
      (∃ x ∈ (before ++ e :: after)[before.countP (fs.isDir ·.dir)]?, x.origin = none) ∨
        ((∀ b ∈ before, fs.isDir b.dir = true) ∧
          ∀ k ∈ e.origin, (elements.eraseIdx k).getLast? ≠ some []) := by
  have hfind :
      (before ++ e :: after).findIdx (fun e => decide (e.IsAt fs dir)) = before.length := by
    have hnone : before.findIdx (fun e => decide (e.IsAt fs dir)) = before.length :=
      List.findIdx_eq_length.mpr fun b hb => decide_eq_false (hbefore b hb)
    rw [List.findIdx_append, hnone, if_neg (Nat.lt_irrefl _), List.findIdx_cons, decide_eq_true he,
      cond_true, Nat.zero_add]
  have hget : (before ++ e :: after)[before.length]? = some e := by simp
  unfold Aligned
  simp only [hfind, hget, List.take_left, Option.mem_some, forall_eq']

/-- An element with one expansion leads to a directory if this expansion does. -/
theorem expandsTo_iff {element : Text} {x : Expansion}
    (hsingle : config.expansions fuel [element] = some [⟨x.dir, some 0⟩]) :
    config.ExpandsTo fs fuel element dir ↔ x.IsAt fs dir := by
  unfold WorkspaceConfig.ExpandsTo
  simp only [hsingle, Option.some.injEq, exists_eq_left', List.mem_singleton, exists_eq_left]
  rfl

/-- The package's directory is in the path. -/
theorem failsOrRemoves_of_found (hopen : openConfig fs fuel config = some w)
    (hes : config.expansions fuel w.elements = some (before ++ e :: after))
    (hw : w = ⟨config, existing fs (before ++ e :: after), (before ++ e :: after).map (·.origin)⟩)
    (he : e.IsAt fs dir) (hbefore : ∀ b ∈ before, ¬ b.IsAt fs dir) :
    w.FailsOrRemoves fs packages fuel (some dir) ↔
      Aligned fs dir w.elements (before ++ e :: after) := by
  have hremove := @removePathByPackagename_eq fs packages fuel dir config w before after e hw he
    hbefore
  have hle : before.countP (fs.isDir ·.dir) ≤ before.length := List.countP_le_length
  have hlt : before.countP (fs.isDir ·.dir) < (before ++ e :: after).length := by
    rw [List.length_append, List.length_cons]
    omega
  obtain ⟨x, hx⟩ : ∃ x, (before ++ e :: after)[before.countP (fs.isDir ·.dir)]? = some x :=
    ⟨_, List.getElem?_eq_getElem hlt⟩
  rw [aligned_iff he hbefore, hx]
  rw [hx, Option.bind_some] at hremove
  cases horigin : x.origin with
  | none =>
    rw [horigin] at hremove
    exact iff_of_true ⟨false, w, hremove, Or.inl ⟨rfl, rfl⟩⟩ (Or.inl ⟨x, rfl, horigin⟩)
  | some k =>
    obtain ⟨element, helement, hsingle⟩ :=
      WorkspaceConfig.expansions_of_origin hes (List.mem_of_getElem? hx) horigin
    obtain ⟨hk, rfl⟩ := List.getElem?_eq_some_iff.mp helement
    obtain ⟨report, w', hset, helements⟩ :=
      @setPath_of_subset fs packages fuel config w hopen (w.elements.eraseIdx k)
        (List.eraseIdx_subset ..)
    rw [horigin] at hremove
    dsimp only at hremove
    rw [eraseIdx_unexpandedPath hk, hset] at hremove
    have hchanged : w' ≠ w := by
      rintro rfl
      have hstarts := (List.rdropWhile_prefix List.isEmpty (w'.elements.eraseIdx k)).length_le
      rw [← helements, List.length_eraseIdx_of_lt hk] at hstarts
      omega
    have hconfig : w.config = config := by rw [hw]
    have hfails : w.FailsOrRemoves fs packages fuel (some dir) ↔
        (w.elements.eraseIdx k).getLast? ≠ some [] ∧ x.IsAt fs dir := by
      rw [← @expandsTo_iff fs fuel dir config _ x hsingle, ← hconfig,
        ← removed_iff hk helements]
      unfold FailsOrRemoves
      simp [hremove, hchanged]
    rw [hfails]
    have hnot : ¬ ∃ y ∈ some x, y.origin = none := by simp [horigin]
    by_cases hall : ∀ b ∈ before, fs.isDir b.dir = true
    · -- nothing is left out in front of the directory, so the indices are the same
      have hcount : before.countP (fs.isDir ·.dir) = before.length :=
        List.countP_eq_length.mpr hall
      rw [hcount] at hx
      obtain rfl : e = x := by simpa using hx
      rw [or_iff_right hnot]
      simp only [horigin, Option.mem_some, forall_eq', he, and_true]
      exact ⟨fun h => ⟨hall, h⟩, And.right⟩
    · -- the index is that of another expansion, further in front
      have hless : before.countP (fs.isDir ·.dir) < before.length :=
        lt_of_le_of_ne hle fun heq => hall (List.countP_eq_length.mp heq)
      rw [List.getElem?_append_left hless] at hx
      have hother : ¬ x.IsAt fs dir := hbefore x (List.mem_of_getElem? hx)
      exact iff_of_false (fun h => hother h.2) fun h => h.elim hnot fun h => hall h.1

theorem failsOrRemoves_iff (hopen : openConfig fs fuel config = some w)
    (hes : config.expansions fuel w.elements = some es) (location : Option Text) :
    w.FailsOrRemoves fs packages fuel location ↔
      ∀ dir ∈ location, Aligned fs dir w.elements es := by
  obtain ⟨es', hes', hw⟩ := eq_of_openConfig hopen
  obtain rfl := Option.some.inj (hes.symm.trans hes')
  cases location with
  | none => exact iff_of_true ⟨false, w, rfl, Or.inl ⟨rfl, rfl⟩⟩ fun dir hdir => nomatch hdir
  | some dir =>
    simp only [Option.mem_some, forall_eq']
    cases hfind : es.find? (fun e => decide (e.IsAt fs dir)) with
    | none =>
      have hnone : ∀ e ∈ es, ¬ e.IsAt fs dir := fun e he =>
        of_decide_eq_false (by simpa using List.find?_eq_none.mp hfind e he)
      have hidx : ¬ w.path.findIdx (· = dir) < w.path.length := by
        rw [List.findIdx_lt_length]
        rintro ⟨d, hd, heq⟩
        rw [hw, of_decide_eq_true heq] at hd
        exact notMem_existing hnone hd
      refine iff_of_true ⟨false, w, if_neg hidx, Or.inl ⟨rfl, rfl⟩⟩ fun e he => ?_
      have hat := List.findIdx_getElem (w := (List.getElem?_eq_some_iff.mp he).1)
      exact absurd (of_decide_eq_true hat) (hnone _ (List.getElem_mem _))
    | some e =>
      obtain ⟨he, before, after, rfl, hbefore⟩ := List.find?_eq_some_iff_append.mp hfind
      exact failsOrRemoves_of_found hopen hes hw (of_decide_eq_true he)
        fun b hb => of_decide_eq_false (by simpa using hbefore b hb)

end removed

/-! ### A directory that does not exist -/

/-- Two packages, and no directory besides. -/
def twoPackages : FileSystem where
  cwd := "/ws".toList
  fileExists _ := true
  isDir d := d = "/ws/a".toList || d = "/ws/b".toList
  realpath d := d

def packagesPath (searchPath : Text) : WorkspaceConfig :=
  ⟨fun _ => none, searchPath, "/ws".toList⟩

/-- A workspace in which no directory has the last name of the path. -/
def goneLast : Workspace :=
  ⟨packagesPath "a:b:gone".toList, ["/ws/a".toList, "/ws/b".toList], [some 0, some 1, some 2]⟩

theorem rehash_goneLast : (packagesPath "a:b:gone".toList).rehash twoPackages 1 [] =
    some (["/ws/a".toList, "/ws/b".toList], [some 0, some 1, some 2]) := by
  decide +kernel

theorem failsOrRemoves_goneLast :
    goneLast.FailsOrRemoves twoPackages id 1 (some "/ws/b".toList) := by
  have hopen : openConfig twoPackages 1 (packagesPath "a:b:gone".toList) = some goneLast := by
    rw [openConfig, rehash_goneLast]
    rfl
  have hes : (packagesPath "a:b:gone".toList).expansions 1 goneLast.elements =
      some [⟨"/ws/a".toList, some 0⟩, ⟨"/ws/b".toList, some 1⟩, ⟨"/ws/gone".toList, some 2⟩] := by
    decide +kernel
  refine (failsOrRemoves_iff hopen hes _).mpr fun dir hdir => ?_
  obtain rfl := Option.some.inj hdir
  have haligned := @aligned_iff twoPackages "/ws/b".toList [⟨"/ws/a".toList, some 0⟩]
    [⟨"/ws/gone".toList, some 2⟩] ⟨"/ws/b".toList, some 1⟩ goneLast.elements (by decide) (by decide)
  refine haligned.mpr (Or.inr ⟨by decide, fun k hk => ?_⟩)
  obtain rfl := Option.some.inj hk
  decide +kernel

/-- A workspace in which no directory has the first name of the path. -/
def goneFirst : Workspace :=
  ⟨packagesPath "gone:a:b".toList, ["/ws/a".toList, "/ws/b".toList], [some 0, some 1, some 2]⟩

theorem rehash_goneFirst : (packagesPath "gone:a:b".toList).rehash twoPackages 1 [] =
    some (["/ws/a".toList, "/ws/b".toList], [some 0, some 1, some 2]) := by
  decide +kernel

/-- For the second package the element of the first one is removed. -/
theorem not_failsOrRemoves_goneFirst :
    openConfig twoPackages 1 (packagesPath "gone:a:b".toList) = some goneFirst ∧
      ¬ goneFirst.FailsOrRemoves twoPackages id 1 (some "/ws/b".toList) := by
  have hopen : openConfig twoPackages 1 (packagesPath "gone:a:b".toList) = some goneFirst := by
    rw [openConfig, rehash_goneFirst]
    rfl
  refine ⟨hopen, ?_⟩
  have hes : (packagesPath "gone:a:b".toList).expansions 1 goneFirst.elements =
      some ([⟨"/ws/gone".toList, some 0⟩, ⟨"/ws/a".toList, some 1⟩] ++
        ⟨"/ws/b".toList, some 2⟩ :: []) := by
    decide +kernel
  rw [failsOrRemoves_of_found hopen hes (by rfl) (by decide) (by decide),
    aligned_iff (by decide) (by decide)]
  rintro (⟨x, hx, hnone⟩ | ⟨hall, -⟩)
  · obtain rfl : (⟨"/ws/a".toList, some 1⟩ : Expansion) = x := Option.some.inj hx
    cases hnone
  · exact absurd (hall ⟨"/ws/gone".toList, some 0⟩ (by decide)) (by decide)

end SearchPath.Workspace
end Awb
