import Awb.Inifile.PerlSave
import Awb.Lib.Folds

/-! The names and values that an object holds, after `open` and after the calls that follow it. -/

namespace Awb.Inifile.Perl

/-- A name that `$group_regexp` takes. -/
structure IsGroup (group : Text) : Prop where
  ne_nil : group ≠ []
  all : group.all isGroupChar = true

/-- A name that `$item_regexp` takes. -/
structure IsItem (item : Text) : Prop where
  ne_nil : item ≠ []
  all : item.all isItemChar = true

/-- A value that stands in a line as it is. -/
structure IsValue (value : Text) : Prop where
  noNewline : '\n' ∉ value
  noSpace : value.head? ≠ some ' '

/-- Items that stand outside of any group are in the group without a name. -/
structure WellFormed (d : Data) : Prop where
  group : ∀ g ∈ d, g = [] ∨ IsGroup g
  item : ∀ g, ∀ i ∈ d.items g, IsItem i
  value : ∀ g i v, d.value g i = some v → IsValue v

section lines
variable {line name value : Text}

theorem isGroup_of_lineKind (h : lineKind line = .group name) : IsGroup name := by
  obtain ⟨hmatch, hne⟩ := lineKind_eq_group h
  refine ⟨hne, ?_⟩
  unfold matchGroup at hmatch
  split at hmatch
  · split at hmatch
    · rename_i hrest
      exact Option.some.inj hmatch ▸ hrest.2
    · simp at hmatch
  · simp at hmatch

theorem isItem_of_lineKind (h : lineKind line = .item name value) : IsItem name := by
  obtain ⟨hmatch, hne⟩ := lineKind_eq_item h
  refine ⟨hne, ?_⟩
  unfold matchItem at hmatch
  split at hmatch
  · obtain ⟨rfl, -⟩ := Prod.mk.inj (Option.some.inj hmatch)
    exact List.all_takeWhile
  · simp at hmatch

theorem isValue_of_lineKind (h : lineKind line = .item name value) (hline : '\n' ∉ line) :
    IsValue value := by
  have hmatch := (lineKind_eq_item h).1
  unfold matchItem at hmatch
  split at hmatch
  · rename_i rest heq
    obtain ⟨-, rfl⟩ := Prod.mk.inj (Option.some.inj hmatch)
    constructor
    · intro hmem
      have hrest : '\n' ∈ (line.dropWhile isItemChar).dropWhile (· = ' ') :=
        heq ▸ List.mem_cons_of_mem _ ((List.dropWhile_suffix _).subset hmem)
      exact hline ((List.dropWhile_suffix _).subset ((List.dropWhile_suffix _).subset hrest))
    · intro hhead
      have := List.head?_dropWhile_not (fun c => decide (c = ' ')) rest
      simp [hhead] at this
  · simp at hmatch

end lines

section data
variable {d : Data} {group item : Text}

theorem wellFormed_empty : WellFormed ∅ where
  group := fun g hg => absurd hg (AList.notMem_empty g)
  item := fun g i hi => absurd hi (AList.notMem_empty i)
  value := fun g i v hv => by simp [Data.value, Data.items] at hv

theorem wellFormed_set (h : WellFormed d) (hgroup : group = [] ∨ IsGroup group) (hitem : IsItem item)
    {value : Option Text} (hvalue : ∀ v ∈ value, IsValue v) : WellFormed (d.set group item value) where
  group := fun g hg => by
    rcases Data.mem_set.mp hg with rfl | hg
    · exact hgroup
    · exact h.group g hg
  item := fun g i hi => by
    rw [Data.items_set] at hi
    split at hi
    · rcases (AList.mem_insert _).mp hi with rfl | hi
      · exact hitem
      · exact h.item group i hi
    · exact h.item g i hi
  value := fun g i v hv => by
    rw [Data.value_set] at hv
    split at hv
    · exact hvalue v hv
    · exact h.value g i v hv

theorem wellFormed_vivify (h : WellFormed d) (hgroup : IsGroup group) :
    WellFormed (d.vivify group) where
  group := fun g hg => by
    rcases Data.mem_vivify.mp hg with rfl | hg
    · exact Or.inr hgroup
    · exact h.group g hg
  item := fun g => by simpa using h.item g
  value := fun g => by simpa using h.value g

/-- `$data->{group} = undef` -/
theorem items_remove (g : Text) : Data.items (AList.insert group none d) g =
    if g = group then ∅ else Data.items d g := by
  by_cases hg : g = group
  · subst hg
    simp [Data.items]
  · rw [Data.items_insert_ne hg, if_neg hg]

theorem wellFormed_remove (h : WellFormed d) (hgroup : IsGroup group) :
    WellFormed (d.insert group none) where
  group := fun g hg => by
    rcases (AList.mem_insert _).mp hg with rfl | hg
    · exact Or.inr hgroup
    · exact h.group g hg
  item := fun g i hi => by
    rw [items_remove] at hi
    split at hi
    · exact absurd hi (AList.notMem_empty i)
    · exact h.item g i hi
  value := fun g i v hv => by
    rw [Data.value, items_remove] at hv
    split at hv
    · simp at hv
    · exact h.value g i v hv

end data

section openFile

/-- Between two lines of a file. -/
structure WellRead (s : State) : Prop where
  more : '\n' ∉ s.more
  curgroup : ∀ g ∈ s.curgroup, IsGroup g
  data : WellFormed s.data

theorem newline_not_mem_squeezeBlanks {line : Text} (h : '\n' ∉ line) :
    '\n' ∉ squeezeBlanks line := by
  unfold squeezeBlanks
  split
  · refine List.not_mem_cons_of_ne_of_not_mem (by decide) fun hmem => h ?_
    exact (List.dropWhile_suffix _).subset hmem
  · exact h

theorem wellRead_openLine {opener : Text → Data → Option Data}
    (hopener : ∀ name d d', WellFormed d → opener name d = some d' → WellFormed d')
    {s s' : State} {raw : Text} (hraw : '\n' ∉ chomp raw) (hs : WellRead s)
    (h : openLine opener s raw = some s') : WellRead s' := by
  have hsqueeze := newline_not_mem_squeezeBlanks hraw
  unfold openLine at h
  dsimp only at h
  split at h
  · obtain rfl := Option.some.inj h
    refine ⟨?_, hs.curgroup, hs.data⟩
    refine List.not_mem_append hs.more fun hmem => hsqueeze ?_
    exact List.dropLast_subset _ ((List.rdropWhile_prefix _ _).subset hmem)
  · have hline := List.not_mem_append hs.more hsqueeze
    cases hkind : lineKind (s.more ++ squeezeBlanks (chomp raw)) with
    | group name =>
      simp only [hkind, Option.some.injEq] at h
      subst h
      exact ⟨List.not_mem_nil, by simpa using isGroup_of_lineKind hkind, hs.data⟩
    | item name value =>
      simp only [hkind, Option.some.injEq] at h
      subst h
      refine ⟨List.not_mem_nil, hs.curgroup, wellFormed_set hs.data ?_ (isItem_of_lineKind hkind) ?_⟩
      · cases hcur : s.curgroup with
        | none => exact Or.inl rfl
        | some group => exact Or.inr (hs.curgroup group hcur)
      · simpa using isValue_of_lineKind hkind hline
    | includes name =>
      simp only [hkind] at h
      obtain ⟨data, hopen, hs'⟩ := Option.bind_eq_some_iff.mp h
      obtain rfl := Option.some.inj hs'
      exact ⟨List.not_mem_nil, hs.curgroup, hopener name _ _ hs.data hopen⟩
    | comment | blank =>
      simp only [hkind, Option.some.injEq] at h
      subst h
      exact ⟨List.not_mem_nil, hs.curgroup, hs.data⟩
    | garbage => simp [hkind] at h

variable {Dir : Type*} {fs : FileSystem Dir} {dir : Dir}

theorem wellFormed_openFile (depth : Nat) {file : Text} {d d' : Data} (hd : WellFormed d)
    (h : openFile fs dir depth file d = some d') : WellFormed d' := by
  induction depth generalizing file d d' with
  | zero => simp [openFile] at h
  | succ depth ih =>
    simp only [openFile, Option.bind_eq_bind, Option.bind_eq_some_iff, Option.pure_def,
      Option.some.injEq] at h
    obtain ⟨text, -, s, hfold, rfl⟩ := h
    have hread : WellRead s := by
      refine List.foldlM_invariant hfold WellRead ⟨List.not_mem_nil, by simp, hd⟩ ?_
      intro s raw s' hraw hs hstep
      exact wellRead_openLine (fun name d d' hd hopen => ih hd hopen) (newline_not_mem_chomp hraw)
        hs hstep
    exact hread.data

end openFile

section calls
variable {order : KeyOrder} {f : Object}

/-- The arguments of a call are names and values that can be saved. -/
def Call.Valid : Call → Prop
  | .put group item value =>
    IsGroup group ∧ IsItem item ∧
      '\n' ∉ value ∧ ¬ value.head?.any isBlank = true ∧ value.getLast? ≠ some '\\'
  | .removeItem group item => IsGroup group ∧ IsItem item
  | .removeGroup group => IsGroup group
  | .copyGroup oldgroup newgroup => IsGroup oldgroup ∧ IsGroup newgroup
  | .flush => True

theorem wellFormed_put (h : WellFormed f.data) {group item value : Text} (hgroup : IsGroup group)
    (hitem : IsItem item) (hvalue : IsValue value) : WellFormed (f.put group item value).data := by
  have hvivify := wellFormed_vivify h hgroup
  unfold Object.put
  dsimp only
  split
  · exact hvivify
  · exact wellFormed_set hvivify (Or.inr hgroup) hitem (by simpa using hvalue)

theorem mem_getItemlist {d : Data} {group item : Text} :
    item ∈ getItemlist order d group ↔ item ∈ d.items group := by
  rw [getItemlist, (order.perm _).mem_iff, AList.mem_keys]

theorem value_of_get {d : Data} {group item value : Text} (h : get d group item = some value) :
    d.value group item = some value := by
  unfold get at h
  split at h
  · simp at h
  · exact h

theorem wellFormed_copyGroup (h : WellFormed f.data) {oldgroup newgroup : Text}
    (hold : IsGroup oldgroup) (hnew : IsGroup newgroup) :
    WellFormed (f.copyGroup order oldgroup newgroup).data := by
  have hvivify := wellFormed_vivify h hold
  unfold Object.copyGroup
  dsimp only
  refine List.foldlRecOn (motive := fun f : Object => WellFormed f.data) _ _ hvivify ?_
  intro f' hf' item hitem
  unfold Object.copyItem
  split
  · exact hf'
  · rename_i value hget
    exact wellFormed_put hf' hnew (hvivify.item _ item (mem_getItemlist.mp hitem))
      (hf'.value _ _ _ (value_of_get hget))

theorem wellFormed_call (h : WellFormed f.data) {c : Call} (hc : c.Valid) :
    WellFormed (f.call order c).data := by
  cases c with
  | put group item value =>
    obtain ⟨hgroup, hitem, hnewline, hblank, -⟩ := hc
    refine wellFormed_put h hgroup hitem ⟨hnewline, fun hhead => hblank ?_⟩
    simp [hhead, isBlank]
  | removeItem group item =>
    change WellFormed (f.removeItem group item).data
    unfold Object.removeItem
    split
    · exact h
    · exact wellFormed_set h (Or.inr hc.1) hc.2 (by simp)
  | removeGroup group =>
    change WellFormed (f.removeGroup group).data
    unfold Object.removeGroup
    split
    · exact h
    · exact wellFormed_remove h hc
  | copyGroup oldgroup newgroup => exact wellFormed_copyGroup h hc.1 hc.2
  | flush => exact wellFormed_empty

theorem wellFormed_calls (h : WellFormed f.data) {calls : List Call} (hcalls : ∀ c ∈ calls, c.Valid) :
    WellFormed (calls.foldl (Object.call order) f).data :=
  List.foldlRecOn (motive := fun f : Object => WellFormed f.data) _ _ h
    fun _ hf c hc => wellFormed_call hf (hcalls c hc)

/-- The data have their values of before, unless something was modified. -/
def Unchanged (f f' : Object) : Prop :=
  f'.filename = f.filename ∧
    (f'.modified = false → f.modified = false ∧ ∀ g i, f'.data.value g i = f.data.value g i)

theorem unchanged_put (f : Object) (group item value : Text) :
    Unchanged f (f.put group item value) := by
  unfold Object.put
  dsimp only
  split
  · exact ⟨rfl, fun h => ⟨h, by simp⟩⟩
  · exact ⟨rfl, by simp⟩

theorem Unchanged.trans {f' f'' : Object} (h : Unchanged f f') (h' : Unchanged f' f'') :
    Unchanged f f'' := by
  refine ⟨h'.1.trans h.1, fun hmodified => ?_⟩
  obtain ⟨hmodified', hvalue'⟩ := h'.2 hmodified
  obtain ⟨hmodified, hvalue⟩ := h.2 hmodified'
  exact ⟨hmodified, fun g i => (hvalue' g i).trans (hvalue g i)⟩

theorem unchanged_copyGroup (f : Object) (oldgroup newgroup : Text) :
    Unchanged f (f.copyGroup order oldgroup newgroup) := by
  unfold Object.copyGroup
  dsimp only
  refine List.foldlRecOn (motive := Unchanged f) _ _ ⟨rfl, fun h => ⟨h, by simp⟩⟩ ?_
  intro f' hf' item _
  unfold Object.copyItem
  split
  · exact hf'
  · exact hf'.trans (unchanged_put ..)

theorem unchanged_call (f : Object) (c : Call) : Unchanged f (f.call order c) := by
  cases c with
  | put group item value => exact unchanged_put ..
  | removeItem group item =>
    change Unchanged f (f.removeItem group item)
    unfold Object.removeItem
    split
    · exact ⟨rfl, fun h => ⟨h, fun _ _ => rfl⟩⟩
    · exact ⟨rfl, by simp⟩
  | removeGroup group =>
    change Unchanged f (f.removeGroup group)
    unfold Object.removeGroup
    split
    · exact ⟨rfl, fun h => ⟨h, fun _ _ => rfl⟩⟩
    · exact ⟨rfl, by simp⟩
  | copyGroup oldgroup newgroup => exact unchanged_copyGroup ..
  | flush => exact ⟨rfl, by simp [Object.call, Object.flush]⟩

theorem unchanged_calls (f : Object) (calls : List Call) :
    Unchanged f (calls.foldl (Object.call order) f) :=
  List.foldlRecOn (motive := Unchanged f) _ _ ⟨rfl, fun h => ⟨h, fun _ _ => rfl⟩⟩
    fun _ hf c _ => hf.trans (unchanged_call _ c)

end calls

end Awb.Inifile.Perl
