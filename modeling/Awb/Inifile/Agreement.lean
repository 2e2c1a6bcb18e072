import Awb.Inifile.Readers

/-! The two readers compared. They see the same items in the same order, and of several values of
an item `inifile.cpp` keeps the first and `Inifile.pm` the last. -/

namespace Awb.Inifile

/-- An item line that was read, with the group it stands in. -/
abbrev Assignment := (Text × Text) × Text

/-- The items of lines in the order they are read; `below` gives those of an included file. -/
def assignmentsOf (below : Text → List Assignment) : Text → List Text → List Assignment
  | _, [] => []
  | group, line :: lines =>
    match Cxx.lineKind line with
    | .includes name => below name ++ assignmentsOf below group lines
    | .comment | .blank | .garbage => assignmentsOf below group lines
    | .group name => assignmentsOf below name lines
    | .item name value => ((group, name), value) :: assignmentsOf below group lines

section alike
variable {Dir : Type*} (fs : FileSystem Dir)

/-- The items of a file and its includes, in the order they are read. -/
def assignments : Nat → Dir → Text → List Assignment
  | 0, _, _ => []
  | depth + 1, dir, file =>
    match fs.read dir file with
    | none => []
    | some text => assignmentsOf (assignments depth (Cxx.enter fs dir file)) []
        ((rawLines text).map chomp)

/-- Both readers get the same text for a file and, line by line, for what it includes: for the one
a name is relative to the including file, for the other to the directory it was started in. -/
def ReadAlike (start : Dir) : Nat → Dir → Text → Prop
  | 0, _, _ => True
  | depth + 1, dir, file =>
    fs.read dir file = Perl.readFile fs start file ∧
      ∀ text ∈ fs.read dir file, ∀ raw ∈ rawLines text, PlainLine (chomp raw) ∧
        ∀ name ∈ Cxx.includeName (chomp raw),
          ReadAlike start depth (Cxx.enter fs dir file) name

end alike

section steps

theorem get_insertGroup (gm : GroupMap) (group g i : Text) :
    Cxx.get (Cxx.insertGroup gm group) g i = Cxx.get gm g i := by
  unfold Cxx.insertGroup
  split
  · rfl
  · rename_i hnot
    unfold Cxx.get
    by_cases hg : g = group
    · subst hg
      have hnone : gm.lookup g = none := AList.lookup_eq_none.mpr hnot
      simp [hnone]
    · rw [AList.lookup_insert_ne hg]

/-- An item that has a value keeps it. -/
theorem get_insertItem (gm : GroupMap) (group name value g i : Text) :
    Cxx.get (Cxx.insertItem gm group name value) g i =
      (Cxx.get gm g i).or (if (g, i) = (group, name) then some value else none) := by
  have hnames : ∀ g', Cxx.get gm g' i = ((gm.lookup g').getD ∅).lookup i := by
    intro g'
    unfold Cxx.get
    cases gm.lookup g' <;> simp
  unfold Cxx.insertItem
  dsimp only
  by_cases hmem : name ∈ (gm.lookup group).getD ∅
  · rw [if_pos hmem]
    by_cases hkey : (g, i) = (group, name)
    · obtain ⟨rfl, rfl⟩ := Prod.mk.inj hkey
      obtain ⟨v, hv⟩ := Option.isSome_iff_exists.mp (AList.lookup_isSome.mpr hmem)
      rw [hnames, hv, Option.some_or]
    · rw [if_neg hkey, Option.or_none]
  · rw [if_neg hmem, hnames]
    by_cases hg : g = group
    · subst hg
      have hinsert : Cxx.get (gm.insert g (((gm.lookup g).getD ∅).insert name value)) g i =
          (((gm.lookup g).getD ∅).insert name value).lookup i := by
        simp only [Cxx.get, AList.lookup_insert, Option.bind_some]
      rw [hinsert]
      by_cases hi : i = name
      · subst hi
        rw [AList.lookup_insert, AList.lookup_eq_none.mpr hmem, if_pos rfl, Option.none_or]
      · rw [AList.lookup_insert_ne hi, if_neg fun he => hi (Prod.mk.inj he).2, Option.or_none]
    · rw [if_neg fun he => hg (Prod.mk.inj he).1, Option.or_none, ← hnames]
      simp only [Cxx.get, AList.lookup_insert_ne hg]

theorem lookup_singleton (k key : Text × Text) (v : Text) :
    [(k, v)].lookup key = if key = k then some v else none := by
  rw [List.lookup_cons]
  by_cases h : key = k
  · simp [h]
  · simp [h, beq_false_of_ne h]

theorem lookup_cons_append (k key : Text × Text) (v : Text) (l : List Assignment) :
    ((k, v) :: l).lookup key = (if key = k then some v else none).or (l.lookup key) := by
  rw [← List.singleton_append, List.lookup_append, lookup_singleton]

theorem lookup_reverse_cons (k key : Text × Text) (v : Text) (l : List Assignment) :
    ((k, v) :: l).reverse.lookup key =
      (l.reverse.lookup key).or (if key = k then some v else none) := by
  rw [List.reverse_cons, List.lookup_append, lookup_singleton]

end steps

section cxx
variable {parse : Text → GroupMap → Option (GroupMap × List Warning)}
  {below : Text → List Assignment} {g i : Text}

/-- The lines add the first values of items that have none. -/
theorem get_parseLines (hg : g ≠ [])
    (hbelow : ∀ name gm gm' w, parse name gm = some (gm', w) →
      Cxx.get gm' g i = (Cxx.get gm g i).or ((below name).lookup (g, i)))
    (lines : List Text) {s s' : Cxx.State}
    (h : lines.foldlM (Cxx.parseLine parse) s = some s') :
    Cxx.get s'.groupMap g i = (Cxx.get s.groupMap g i).or
      ((assignmentsOf below (s.currentNameMap.getD []) lines).lookup (g, i)) := by
  induction lines generalizing s with
  | nil =>
    obtain rfl := Option.some.inj h
    simp [assignmentsOf]
  | cons line lines ih =>
    rw [List.foldlM_cons] at h
    obtain ⟨m, hstep, hrest⟩ := Option.bind_eq_some_iff.mp h
    unfold Cxx.parseLine at hstep
    unfold assignmentsOf
    cases hkind : Cxx.lineKind line with
    | includes name =>
      simp only [hkind] at hstep
      obtain ⟨⟨gm', w⟩, hparse, hm⟩ := Option.bind_eq_some_iff.mp hstep
      obtain rfl := Option.some.inj hm
      rw [ih hrest, hbelow name _ _ _ hparse, List.lookup_append, Option.or_assoc]
    | comment | blank =>
      simp only [hkind, Option.some.injEq] at hstep
      exact hstep ▸ ih hrest
    | group name =>
      simp only [hkind, Option.some.injEq] at hstep
      subst hstep
      rw [ih hrest, get_insertGroup]
      rfl
    | item name value =>
      simp only [hkind] at hstep
      split at hstep <;> obtain rfl := Option.some.inj hstep
      · -- outside of any group the item is passed over
        rename_i hcur
        rw [ih hrest, hcur, Option.getD_none, lookup_cons_append,
          if_neg fun he => hg (Prod.mk.inj he).1, Option.none_or]
      · rename_i group hcur
        rw [ih hrest, get_insertItem, hcur, Option.getD_some, lookup_cons_append, Option.or_assoc]
    | garbage =>
      simp only [hkind, Option.some.injEq] at hstep
      subst hstep
      have hget := ih hrest
      exact hget

/-- `Parse` finds the first value of each item. -/
theorem get_parse {Dir : Type*} {fs : FileSystem Dir} (hg : g ≠ []) (depth : Nat) {dir : Dir}
    {file : Text} {gm gm' : GroupMap} {w : List Warning}
    (h : Cxx.parse fs depth dir file gm = some (gm', w)) :
    Cxx.get gm' g i = (Cxx.get gm g i).or ((assignments fs depth dir file).lookup (g, i)) := by
  induction depth generalizing dir file gm gm' w with
  | zero => simp [Cxx.parse] at h
  | succ depth ih =>
    simp only [Cxx.parse, Option.bind_eq_bind, Option.bind_eq_some_iff, Option.pure_def,
      Option.some.injEq, Prod.mk.injEq] at h
    obtain ⟨text, htext, s, hfold, rfl, -⟩ := h
    rw [assignments, htext]
    exact get_parseLines hg (fun name gm gm' w hparse => ih hparse) _ hfold

end cxx

section perl

/-- No line was complained about as garbage. -/
def Clean (warnings : List Warning) : Prop := ∀ line, .unclassified line ∉ warnings

variable {parse : Text → GroupMap → Option (GroupMap × List Warning)}
  {openFile : Text → Data → Option Data} {below : Text → List Assignment}

theorem warnings_parseLine {line : Text} {s s' : Cxx.State}
    (h : Cxx.parseLine parse s line = some s') :
    s.warnings ⊆ s'.warnings ∧ (Cxx.lineKind line = .garbage → .unclassified line ∈ s'.warnings) ∧
      ∀ name gm w, Cxx.lineKind line = .includes name → parse name s.groupMap = some (gm, w) →
        w ⊆ s'.warnings := by
  unfold Cxx.parseLine at h
  cases hkind : Cxx.lineKind line with
  | includes name =>
    simp only [hkind] at h
    obtain ⟨⟨gm, w⟩, hparse, hs⟩ := Option.bind_eq_some_iff.mp h
    obtain rfl := Option.some.inj hs
    refine ⟨List.subset_append_left _ _, by simp, fun name' gm' w' he hparse' => ?_⟩
    obtain rfl := LineKind.includes.inj he
    obtain ⟨rfl, rfl⟩ := Prod.mk.inj (Option.some.inj (hparse.symm.trans hparse'))
    exact List.subset_append_right _ _
  | item name value =>
    simp only [hkind] at h
    split at h <;> obtain rfl := Option.some.inj h <;> simp
  | _ =>
    simp only [hkind, Option.some.injEq] at h
    subst h
    simp

theorem warnings_parseLines {lines : List Text} {s s' : Cxx.State}
    (h : lines.foldlM (Cxx.parseLine parse) s = some s') : s.warnings ⊆ s'.warnings := by
  induction lines generalizing s with
  | nil => exact Option.some.inj h ▸ List.Subset.refl _
  | cons line lines ih =>
    rw [List.foldlM_cons] at h
    obtain ⟨m, hstep, hrest⟩ := Option.bind_eq_some_iff.mp h
    exact List.Subset.trans (warnings_parseLine hstep).1 (ih hrest)

theorem includeName_of_kind {line name : Text} (hplain : PlainLine line)
    (h : Cxx.lineKind line = .includes name) : Cxx.includeName line = some name := by
  unfold Cxx.lineKind at h
  rw [cText_eq hplain.noNul] at h
  dsimp only at h
  split at h
  · rename_i name' heq
    exact LineKind.includes.inj h ▸ heq
  · split at h
    · simp at h
    · split at h
      · simp at h
      · split at h <;> simp at h

theorem nil_not_mem_insertGroup {gm : GroupMap} {name : Text} (hname : name ≠ [])
    (h : [] ∉ gm) : [] ∉ Cxx.insertGroup gm name := by
  unfold Cxx.insertGroup
  split
  · exact h
  · rw [AList.mem_insert]
    exact not_or.mpr ⟨fun he => hname he.symm, h⟩

theorem nil_not_mem_insertItem {gm : GroupMap} {group name value : Text} (hgroup : group ≠ [])
    (h : [] ∉ gm) : [] ∉ Cxx.insertItem gm group name value := by
  unfold Cxx.insertItem
  dsimp only
  split
  · exact h
  · rw [AList.mem_insert]
    exact not_or.mpr ⟨fun he => hgroup he.symm, h⟩

section skipped
variable {line : Text}

theorem parseLine_of_skips {s : Cxx.State} (h : (Cxx.lineKind line).skips = true) :
    Cxx.parseLine parse s line = some s := by
  unfold Cxx.parseLine
  cases hk : Cxx.lineKind line <;> simp_all [LineKind.skips]

theorem assignmentsOf_of_skips {group : Text} {lines : List Text}
    (h : (Cxx.lineKind line).skips = true) :
    assignmentsOf below group (line :: lines) = assignmentsOf below group lines := by
  rw [assignmentsOf]
  cases hk : Cxx.lineKind line <;> simp_all [LineKind.skips]

end skipped

/-- What the two readers have after a line, from what they had before: the items of the line are
`new` ones for both. -/
structure SameStep (below : Text → List Assignment) (line : Text) (s s' : Cxx.State)
    (t t' : Perl.State) (new : List Assignment) : Prop where
  more : t'.more = []
  cur : t'.curgroup = s'.currentNameMap
  named : s'.currentNameMap ≠ some []
  value : ∀ g i, t'.data.value g i = (new.reverse.lookup (g, i)).or (t.data.value g i)
  noNil : [] ∉ s.groupMap → [] ∉ s'.groupMap
  assignments : ∀ lines, assignmentsOf below (s.currentNameMap.getD []) (line :: lines) =
    new ++ assignmentsOf below (s'.currentNameMap.getD []) lines

/-- What is assumed of an included file. -/
def SameBelow (parse : Text → GroupMap → Option (GroupMap × List Warning))
    (openFile : Text → Data → Option Data) (below : Text → List Assignment) (name : Text) : Prop :=
  ∀ gm gm' w data data', parse name gm = some (gm', w) → Clean w →
    openFile name data = some data' →
    (∀ g i, data'.value g i = ((below name).reverse.lookup (g, i)).or (data.value g i)) ∧
      ([] ∉ gm → [] ∉ gm')

theorem sameStep {raw : Text} (hline : PlainLine (chomp raw))
    (hbelow : ∀ name, Cxx.includeName (chomp raw) = some name → SameBelow parse openFile below name)
    {s s' : Cxx.State} {t t' : Perl.State}
    (hcxx : Cxx.parseLine parse s (chomp raw) = some s') (hclean : Clean s'.warnings)
    (hperl : Perl.openLine openFile t raw = some t') (hmore : t.more = [])
    (hcur : t.curgroup = s.currentNameMap) (hnamed : s.currentNameMap ≠ some []) :
    ∃ new, SameStep below (chomp raw) s s' t t' new := by
  obtain ⟨-, hgarbage, hincluded⟩ := warnings_parseLine hcxx
  have hopen := hperl
  unfold Perl.openLine at hopen
  simp only [if_neg hline.notContinued, hmore, List.nil_append] at hopen
  rcases lineKind_eq hline (fun h => hclean _ (hgarbage h)) (fun h => by simp [h] at hopen)
    with ⟨hskip, hskip'⟩ | heq
  · obtain rfl := Option.some.inj ((parseLine_of_skips hskip).symm.trans hcxx)
    obtain rfl := Option.some.inj
      ((Perl.openLine_of_skips hline.notContinued (by simpa [hmore] using hskip')).symm.trans hperl)
    exact ⟨[], rfl, hcur, hnamed, fun g i => rfl, id, fun lines => assignmentsOf_of_skips hskip⟩
  clear hperl
  rw [← heq] at hopen
  have hcxx' := hcxx
  unfold Cxx.parseLine at hcxx'
  cases hk : Cxx.lineKind (chomp raw) with
  | includes name =>
    simp only [hk] at hcxx' hopen
    obtain ⟨⟨gm', w⟩, hparse, hs⟩ := Option.bind_eq_some_iff.mp hcxx'
    obtain ⟨data', hfile, ht⟩ := Option.bind_eq_some_iff.mp hopen
    obtain rfl := Option.some.inj hs
    obtain rfl := Option.some.inj ht
    have hw : Clean w := fun line hmem => hclean line (hincluded name gm' w hk hparse hmem)
    obtain ⟨hvalue, hnil⟩ := hbelow name (includeName_of_kind hline hk) _ _ _ _ _ hparse hw hfile
    refine ⟨below name, rfl, hcur, hnamed, hvalue, hnil, fun lines => ?_⟩
    rw [assignmentsOf, hk]
  | comment | blank =>
    simp only [hk, Option.some.injEq] at hcxx' hopen
    subst hcxx' hopen
    refine ⟨[], rfl, hcur, hnamed, fun g i => rfl, id, fun lines => ?_⟩
    rw [assignmentsOf, hk, List.nil_append]
  | group name =>
    simp only [hk, Option.some.injEq] at hcxx' hopen
    subst hcxx' hopen
    have hname := (Perl.lineKind_eq_group (heq ▸ hk)).2
    refine ⟨[], rfl, rfl, by simpa using hname, fun g i => rfl, nil_not_mem_insertGroup hname, ?_⟩
    intro lines
    rw [assignmentsOf, hk]
    rfl
  | item name value =>
    simp only [hk, Option.some.injEq] at hcxx' hopen
    subst hopen
    have hvalue : ∀ g i, (t.data.set (t.curgroup.getD []) name (some value)).value g i =
        ([((s.currentNameMap.getD [], name), value)].reverse.lookup (g, i)).or
          (t.data.value g i) := by
      intro g i
      rw [Data.value_set, hcur, List.reverse_singleton, lookup_singleton]
      by_cases hkey : g = s.currentNameMap.getD [] ∧ i = name
      · rw [if_pos hkey, if_pos (Prod.ext hkey.1 hkey.2), Option.some_or]
      · rw [if_neg hkey, if_neg fun he => hkey ⟨(Prod.mk.inj he).1, (Prod.mk.inj he).2⟩,
          Option.none_or]
    split at hcxx' <;> obtain rfl := Option.some.inj hcxx'
    · refine ⟨_, rfl, hcur, hnamed, hvalue, id, fun lines => ?_⟩
      rw [assignmentsOf, hk]
      rfl
    · rename_i group hgroup
      refine ⟨_, rfl, hcur, hnamed, hvalue, nil_not_mem_insertItem ?_, fun lines => ?_⟩
      · rintro rfl
        exact hnamed hgroup
      · rw [assignmentsOf, hk]
        rfl
  | garbage => simp [hk] at hopen

/-- Beside a clean reader of the same lines the items are read in order, each replacing an earlier
one, and no group without name is met. -/
theorem sameRun (raws : List Text) (hplain : ∀ raw ∈ raws, PlainLine (chomp raw))
    (hbelow : ∀ raw ∈ raws, ∀ name, Cxx.includeName (chomp raw) = some name →
      SameBelow parse openFile below name)
    {s s' : Cxx.State} {t t' : Perl.State}
    (hcxx : (raws.map chomp).foldlM (Cxx.parseLine parse) s = some s') (hclean : Clean s'.warnings)
    (hperl : raws.foldlM (Perl.openLine openFile) t = some t') (hmore : t.more = [])
    (hcur : t.curgroup = s.currentNameMap) (hnamed : s.currentNameMap ≠ some []) :
    (∀ g i, t'.data.value g i =
      ((assignmentsOf below (s.currentNameMap.getD []) (raws.map chomp)).reverse.lookup (g, i)).or
        (t.data.value g i)) ∧
      ([] ∉ s.groupMap → [] ∉ s'.groupMap) := by
  induction raws generalizing s t with
  | nil =>
    obtain rfl := Option.some.inj hcxx
    obtain rfl := Option.some.inj hperl
    exact ⟨fun g i => by simp [assignmentsOf], id⟩
  | cons raw raws ih =>
    obtain ⟨hline, hplain'⟩ := List.forall_mem_cons.mp hplain
    obtain ⟨hbelow₁, hbelow'⟩ := List.forall_mem_cons.mp hbelow
    rw [List.map_cons, List.foldlM_cons] at hcxx
    obtain ⟨ms, hstep, hcxx⟩ := Option.bind_eq_some_iff.mp hcxx
    rw [List.foldlM_cons] at hperl
    obtain ⟨mt, hopen, hperl⟩ := Option.bind_eq_some_iff.mp hperl
    have hclean' : Clean ms.warnings := fun line hmem =>
      hclean line (warnings_parseLines hcxx hmem)
    obtain ⟨new, hnew⟩ := sameStep hline hbelow₁ hstep hclean' hopen hmore hcur hnamed
    obtain ⟨hvalue, hnil⟩ := ih hplain' hbelow' hcxx hperl hnew.more hnew.cur hnew.named
    refine ⟨fun g i => ?_, fun h => hnil (hnew.noNil h)⟩
    rw [hvalue, hnew.value, List.map_cons, hnew.assignments, List.reverse_append,
      List.lookup_append, Option.or_assoc]

end perl

section files
variable {Dir : Type*} {fs : FileSystem Dir} {start : Dir}

/-- What the two readers make of a file that they read alike. -/
theorem sameFile (depth : Nat) {depth' : Nat} {dir : Dir} {file : Text}
    (halike : ReadAlike fs start depth dir file) {gm gm' : GroupMap} {w : List Warning}
    {data data' : Data} (hcxx : Cxx.parse fs depth dir file gm = some (gm', w)) (hclean : Clean w)
    (hperl : Perl.openFile fs start depth' file data = some data') :
    (∀ g i, data'.value g i =
      ((assignments fs depth dir file).reverse.lookup (g, i)).or (data.value g i)) ∧
      ([] ∉ gm → [] ∉ gm') := by
  induction depth generalizing depth' dir file gm gm' w data data' with
  | zero => simp [Cxx.parse] at hcxx
  | succ depth ih =>
    cases depth' with
    | zero => simp [Perl.openFile] at hperl
    | succ depth' =>
      obtain ⟨hread, hlines⟩ := halike
      simp only [Cxx.parse, Option.bind_eq_bind, Option.bind_eq_some_iff, Option.pure_def,
        Option.some.injEq, Prod.mk.injEq] at hcxx
      obtain ⟨text, htext, s, hfold, rfl, rfl⟩ := hcxx
      simp only [Perl.openFile, ← hread, htext, Option.bind_eq_bind, Option.bind_some,
        Option.bind_eq_some_iff, Option.pure_def, Option.some.injEq] at hperl
      obtain ⟨t, hopen, rfl⟩ := hperl
      have hplain := hlines text htext
      rw [assignments, htext]
      refine sameRun _ (fun raw hraw => (hplain raw hraw).1) ?_ hfold hclean hopen rfl rfl (by simp)
      intro raw hraw name hname gm gm' w data data' hparse hw hfile
      exact ih ((hplain raw hraw).2 name hname) hparse hw hfile

theorem isSome_lookup_reverse (l : List Assignment) (key : Text × Text) :
    (l.reverse.lookup key).isSome = (l.lookup key).isSome := by
  rw [Bool.eq_iff_iff, List.lookup_isSome_iff, List.lookup_isSome_iff]
  simp

theorem value_empty (g i : Text) : Data.value ∅ g i = none := by
  simp [Data.value, Data.items]

/-- On files that both read alike and accept, one reader finds a value exactly if the other does,
except in a group `0`, and they find the same exactly if the item's first and last value are. -/
theorem readers_agree {file : Text} (halike : ∀ depth, ReadAlike fs start depth start file)
    {depth depth' : Nat} {gm : GroupMap} {w : List Warning} {data : Data}
    (hcxx : Cxx.parse fs depth start file ∅ = some (gm, w)) (hclean : Clean w)
    (hperl : Perl.openFile fs start depth' file ∅ = some data) (g i : Text) (hzero : g ≠ ['0']) :
    (Cxx.get gm g i).isSome = (Perl.get data g i).isSome ∧
      (Cxx.get gm g i = Perl.get data g i ↔ g = [] ∨
        (assignments fs depth start file).lookup (g, i) =
          (assignments fs depth start file).reverse.lookup (g, i)) := by
  obtain ⟨hvalue, hnil⟩ := sameFile depth (halike depth) hcxx hclean hperl
  by_cases hg : g = []
  · subst hg
    have hnone : gm.lookup [] = none := AList.lookup_eq_none.mpr (hnil (AList.notMem_empty _))
    simp [Cxx.get, hnone, Perl.get, Perl.falsy]
  · have hfirst : Cxx.get gm g i = (assignments fs depth start file).lookup (g, i) := by
      simpa [Cxx.get] using get_parse hg depth hcxx
    have hlast : Perl.get data g i = (assignments fs depth start file).reverse.lookup (g, i) := by
      rw [Perl.get, if_neg (by simp [Perl.falsy, hg, hzero]), hvalue, value_empty, Option.or_none]
    rw [hfirst, hlast, isSome_lookup_reverse]
    exact ⟨rfl, by simp [hg]⟩

end files

section examples

/-- A directory with a main file and one to include. -/
def exampleFiles (main : String) : FileSystem Unit where
  read := fun _ name =>
    if name = "/m".toList then some main.toList
    else if name = "/s".toList then some "[g]\ny = 2 \n".toList
    else none
  chdir := fun _ _ => none
  stdin := []

instance (line : Text) : Decidable (PlainLine line) :=
  decidable_of_iff ('\x00' ∉ line ∧ line.getLast? ≠ some '\\' ∧
      Cxx.includeName line = Perl.includeName line)
    ⟨fun ⟨h1, h2, h3⟩ => ⟨h1, h2, h3⟩, fun ⟨h1, h2, h3⟩ => ⟨h1, h2, h3⟩⟩

theorem readers_agree_example : ∃ gm data,
    Cxx.parse (exampleFiles "#include \"/s\"\n[g]\nx=1\n") 2 () "/m".toList ∅ = some (gm, []) ∧
      Perl.openFile (exampleFiles "#include \"/s\"\n[g]\nx=1\n") () 2 "/m".toList ∅ = some data ∧
      Cxx.get gm ['g'] ['y'] = Perl.get data ['g'] ['y'] := by
  let fs := exampleFiles "#include \"/s\"\n[g]\nx=1\n"
  have hsub : ∀ depth, ReadAlike fs () depth () "/s".toList := by
    intro depth
    cases depth with
    | zero => trivial
    | succ depth =>
      have hlines : ∀ text ∈ fs.read () "/s".toList, ∀ raw ∈ rawLines text,
          PlainLine (chomp raw) ∧ Cxx.includeName (chomp raw) = none := by decide
      refine ⟨by decide, fun text htext raw hraw => ?_⟩
      obtain ⟨hplain, hnone⟩ := hlines text htext raw hraw
      exact ⟨hplain, by simp [hnone]⟩
  have hmain : ∀ depth, ReadAlike fs () depth () "/m".toList := by
    intro depth
    cases depth with
    | zero => trivial
    | succ depth =>
      have hlines : ∀ text ∈ fs.read () "/m".toList, ∀ raw ∈ rawLines text,
          PlainLine (chomp raw) ∧ ∀ name ∈ Cxx.includeName (chomp raw), name = "/s".toList := by
        decide
      refine ⟨by decide, fun text htext raw hraw => ?_⟩
      obtain ⟨hplain, hname⟩ := hlines text htext raw hraw
      exact ⟨hplain, fun name h => hname name h ▸ hsub depth⟩
  have hruns : ∃ r ∈ Cxx.parse fs 2 () "/m".toList ∅, r.2 = [] ∧
      ∃ data ∈ Perl.openFile fs () 2 "/m".toList ∅, True := by decide
  obtain ⟨⟨gm, w⟩, hcxx, hw, data, hperl, -⟩ := hruns
  obtain rfl : w = [] := hw
  refine ⟨gm, data, hcxx, hperl, ?_⟩
  exact (readers_agree hmain hcxx (by simp [Clean]) hperl ['g'] ['y'] (by decide)).2.mpr
    (Or.inr (by decide))

/-- Of two values of an item one reader takes the first and the other the last. -/
theorem readers_disagree : ¬ ∀ (fs : FileSystem Unit) (file : Text) (depth depth' : Nat)
    (gm : GroupMap) (w : List Warning) (data : Data),
      Cxx.parse fs depth () file ∅ = some (gm, w) → Clean w →
      Perl.openFile fs () depth' file ∅ = some data →
      ∀ g i, Cxx.get gm g i = Perl.get data g i := by
  intro h
  let fs := exampleFiles "[g]\nx=1\nx=2\n"
  have hruns : ∃ r ∈ Cxx.parse fs 1 () "/m".toList ∅, r.2 = [] ∧
      ∃ data ∈ Perl.openFile fs () 1 "/m".toList ∅,
        Cxx.get r.1 ['g'] ['x'] ≠ Perl.get data ['g'] ['x'] := by decide
  obtain ⟨⟨gm, w⟩, hcxx, hw, data, hperl, hne⟩ := hruns
  obtain rfl : w = [] := hw
  exact hne (h fs _ 1 1 gm [] data hcxx (by simp [Clean]) hperl ['g'] ['x'])

end examples

end Awb.Inifile
