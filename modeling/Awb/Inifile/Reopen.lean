import Awb.Inifile.SaveRun

/-! A file that `save` wrote, opened again. The object has its data back unless `save` printed an
item that was removed, or dies of a line that lost its last character. -/

namespace Awb.Inifile.Perl

section saved
variable {openFile : Text → Data → Option Data} {order : KeyOrder} {D : Data} {s : SaveState}
  {old : Option Text}

theorem saveInv_saveData (hD : WellFormed D) (h : saveData order D old = some s) :
    SaveInv D s := by
  rw [saveData_eq, Option.map_eq_some_iff] at h
  obtain ⟨m, hlines, rfl⟩ := h
  have hinv : SaveInv D m := (SaveInv.initial D).run hD newline_not_mem_oldLines hlines
  exact (hinv.atEnd hD).spillGroups hD fun g hg => mem_getGrouplist.mp hg

/-- Data with items outside of any group are printed with a group line that is garbage. -/
theorem readLines_of_noGroup (hD : WellFormed D) (hnil : [] ∈ D)
    (h : saveData order D old = some s) (t : State) : readLines openFile t s.printed = none := by
  rw [saveData_eq, Option.map_eq_some_iff] at h
  obtain ⟨m, hlines, rfl⟩ := h
  have hinv : SaveInv D (leftover order m) :=
    ((SaveInv.initial D).run hD newline_not_mem_oldLines hlines).atEnd hD
  obtain ⟨before, after, hprinted⟩ : ∃ before after, (List.foldl (newGroup order) (leftover order m)
      (getGrouplist order (leftover order m).data)).printed = before ++ [] :: groupLine [] :: after :=
    exists_groupLine (mem_getGrouplist.mpr (hinv.mem [] hnil))
      fun hdone => (hinv.groupsDone [] hdone).ne_nil rfl
  rw [hprinted]
  cases hbefore : readLines openFile t before with
  | none =>
    rw [readLines, List.map_append, List.foldlM_append]
    exact congrArg (Option.bind · _) hbefore
  | some u => rw [readLines_append hbefore, readLines_noGroup]

end saved

/-- `open` reads a comment of the old file or a value as continued, where `save` does not. -/
def Continued (old : Option Text) (D : Data) : Prop :=
  ¬ CommentsEnd (oldLines old) ∨ ∃ g i v, D.value g i = some v ∧ v.getLast? = some '\\'

/-- No line of the old file becomes garbage without its last character, there are no items outside
of any group, and the removed items of a group are in each of its sections of the old file. -/
structure Undamaged (old : Option Text) (D : Data) : Prop where
  noGarbage : .garbage ∉ lineKinds (oldLines old)
  noItems : [] ∉ D
  removed : ∀ g i, falsy g = false → i ∈ D.items g → D.value g i = none →
    (∃ sec ∈ sections none [] (lineKinds (oldLines old)), sec.1 = g) ∧
      ∀ sec ∈ sections none [] (lineKinds (oldLines old)), sec.1 = g → i ∈ sec.2

section values
variable {D : Data} {lines : List LineKind} {g i : Text}

theorem printed_of_value (h : (D.value g i).isSome = true) : Printed D lines g i := by
  have hi := mem_items_of_value h
  by_cases hsec : ∃ sec ∈ sections none [] lines, sec.1 = g
  · obtain ⟨sec, hmem, hg⟩ := hsec
    exact Or.inl ⟨sec, hmem, hg, hi, fun _ => h⟩
  · exact Or.inr ⟨fun sec hmem hg => hsec ⟨sec, hmem, hg⟩, hi⟩

/-- A removed item is printed unless each section of its group has it. -/
theorem printed_of_removed (hvalue : D.value g i = none) : Printed D lines g i ↔
    i ∈ D.items g ∧ ¬ ((∃ sec ∈ sections none [] lines, sec.1 = g) ∧
      ∀ sec ∈ sections none [] lines, sec.1 = g → i ∈ sec.2) := by
  constructor
  · rintro (⟨sec, hmem, hg, hi, hsome⟩ | ⟨hnone, hi⟩)
    · refine ⟨hi, fun hall => ?_⟩
      simpa [hvalue] using hsome (hall.2 sec hmem hg)
    · exact ⟨hi, fun ⟨⟨sec, hmem, hg⟩, _⟩ => hnone sec hmem hg⟩
  · rintro ⟨hi, hnot⟩
    by_cases hsec : ∃ sec ∈ sections none [] lines, sec.1 = g
    · have hmiss : ¬ ∀ sec ∈ sections none [] lines, sec.1 = g → i ∈ sec.2 :=
        fun hall => hnot ⟨hsec, hall⟩
      push Not at hmiss
      obtain ⟨sec, hmem, hg, hni⟩ := hmiss
      exact Or.inl ⟨sec, hmem, hg, hi, fun hin => absurd hin hni⟩
    · exact Or.inr ⟨fun sec hmem hg => hsec ⟨sec, hmem, hg⟩, hi⟩

/-- What is read back has the values of the data exactly if no removed item was printed. -/
theorem get_eq_iff {d : Data} (hsome : ∀ g i, (d.value g i).isSome = true ↔ Printed D lines g i)
    (hvalue : ∀ g i v, falsy g = false → d.value g i = some v → v = (D.value g i).getD []) :
    (∀ g i, get d g i = get D g i) ↔ ∀ g i, falsy g = false → D.value g i = none →
      ¬ Printed D lines g i := by
  constructor
  · intro hget g i hfalsy hnone hprinted
    have hread := (hsome g i).mpr hprinted
    rw [← get_of_not_falsy hfalsy, hget, get_of_not_falsy hfalsy, hnone] at hread
    exact absurd hread (by simp)
  · intro hremoved g i
    cases hfalsy : falsy g with
    | true => rw [get, get, if_pos hfalsy, if_pos hfalsy]
    | false =>
      rw [get_of_not_falsy hfalsy, get_of_not_falsy hfalsy]
      cases hD : D.value g i with
      | none =>
        have hnot : ¬ (d.value g i).isSome = true :=
          fun h => hremoved g i hfalsy hD ((hsome g i).mp h)
        simpa using hnot
      | some v =>
        obtain ⟨v', hv'⟩ := Option.isSome_iff_exists.mp
          ((hsome g i).mpr (printed_of_value (Option.isSome_of_mem hD)))
        rw [hv', hvalue g i v' hfalsy hv', hD, Option.getD_some]

end values

section reopens
variable {Dir : Type*} [DecidableEq Dir] (order : KeyOrder) (fs : FileSystem Dir)
  (access : Access Dir) (dir : Dir)

/-- The object is saved, the saved file is opened, and `get` returns what it returned. -/
def Reopens (f : Object) (file : Option Text) : Prop :=
  ∃ fs' saved name depth reopened, save order fs access dir f file = some (fs', saved) ∧
    saved.filename = some name ∧ new fs' dir depth name = some reopened ∧
    ∀ g i, get reopened.data g i = get saved.data g i

/-- A name that a two-argument `open` takes as it is. -/
structure IsFileName (file : Text) : Prop where
  openName : openName file = file
  notStdin : file ≠ ['-']

/-- A save that does nothing. -/
def Unneeded (f : Object) (file : Text) : Prop := f.modified = false ∧ f.filename = some file

variable {order fs access dir} {f f₀ : Object} {file name : Text} {arg : Option Text}

theorem save_eq (htarget : f.target arg = some file) (hname : IsFileName file)
    (hreplace : access.replace dir file = true) (hneeded : ¬ Unneeded f file) :
    save order fs access dir f arg =
      (saveData order f.data (f.filename.bind (readOld fs access dir))).map fun s =>
        (write fs dir file (unlines s.printed),
          { filename := some file, data := s.data, modified := false }) := by
  unfold save
  unfold Unneeded at hneeded
  rw [htarget, Option.bind_some, if_neg hneeded, Option.map_eq_bind]
  dsimp only
  refine congrArg _ (funext fun s => ?_)
  rw [if_pos hreplace, hname.openName, ite_self]
  rfl

theorem openFile_write (hname : IsFileName file) {lines : List Text}
    (hlines : ∀ l ∈ lines, '\n' ∉ l) (depth : Nat) :
    openFile (write fs dir file (unlines lines)) dir (depth + 1) file ∅ =
      (readLines (openFile (write fs dir file (unlines lines)) dir depth) { data := ∅ } lines).map
        (·.data) := by
  have hread : readFile (write fs dir file (unlines lines)) dir file = some (unlines lines) := by
    rw [readFile, hname.openName, if_neg hname.notStdin]
    exact if_pos ⟨rfl, rfl⟩
  rw [openFile, hread, Option.bind_eq_bind, Option.bind_some, rawLines_unlines hlines]
  exact Option.map_eq_bind.symm

theorem readLines_of_reopens (hD : WellFormed f.data) (htarget : f.target arg = some file)
    (hname : IsFileName file) (hreplace : access.replace dir file = true)
    (hneeded : ¬ Unneeded f file) (h : Reopens order fs access dir f arg) :
    ∃ s t opener, saveData order f.data (f.filename.bind (readOld fs access dir)) = some s ∧
      readLines opener { data := ∅ } s.printed = some t ∧
      ∀ g i, get t.data g i = get f.data g i := by
  obtain ⟨fs', saved, name, depth, reopened, hsave, hfile, hnew, hget⟩ := h
  rw [save_eq htarget hname hreplace hneeded, Option.map_eq_some_iff] at hsave
  obtain ⟨s, hs, heq⟩ := hsave
  obtain ⟨rfl, rfl⟩ := Prod.mk.inj heq
  obtain rfl := Option.some.inj hfile
  have hinv : SaveInv f.data s := saveInv_saveData hD hs
  obtain ⟨data, hopen, rfl⟩ := Option.map_eq_some_iff.mp hnew
  cases depth with
  | zero => simp [openFile] at hopen
  | succ depth =>
    rw [openFile_write hname hinv.printed] at hopen
    obtain ⟨t, hread, rfl⟩ := Option.map_eq_some_iff.mp hopen
    refine ⟨s, t, _, hs, hread, fun g i => (hget g i).trans ?_⟩
    rw [get, get, hinv.value]

theorem reopens_of_readLines (hD : WellFormed f.data) (htarget : f.target arg = some file)
    (hname : IsFileName file) (hreplace : access.replace dir file = true)
    (hneeded : ¬ Unneeded f file) {s : SaveState}
    (hs : saveData order f.data (f.filename.bind (readOld fs access dir)) = some s)
    (hread : ∀ opener, ∃ t, readLines opener { data := ∅ } s.printed = some t ∧
      ∀ g i, get t.data g i = get f.data g i) : Reopens order fs access dir f arg := by
  have hinv : SaveInv f.data s := saveInv_saveData hD hs
  let fs' := write fs dir file (unlines s.printed)
  obtain ⟨t, ht, hget⟩ := hread (openFile fs' dir 0)
  let saved : Object := { filename := some file, data := s.data, modified := false }
  refine ⟨fs', saved, file, 1, { filename := some file, data := t.data }, ?_, rfl, ?_,
    fun g i => (hget g i).trans ?_⟩
  · rw [save_eq htarget hname hreplace hneeded, hs]
    rfl
  · rw [new, openFile_write hname hinv.printed, ht]
    rfl
  · rw [get, get, hinv.value]

/-- An object of a file, after calls, is saved and reopened with the same data if nothing changed
and it is saved to its file, or if nothing continues and nothing is damaged; and only then, as far
as nothing continues. -/
theorem reopens_iff {depth : Nat} (hnew : new fs dir depth name = some f₀) {calls : List Call}
    (hcalls : ∀ c ∈ calls, c.Valid) (hf : f = calls.foldl (Object.call order) f₀)
    (htarget : f.target arg = some file) (hname : IsFileName file)
    (hreplace : access.replace dir file = true) :
    (Unneeded f file ∨ ¬ Continued (readOld fs access dir name) f.data ∧
        Undamaged (readOld fs access dir name) f.data → Reopens order fs access dir f arg) ∧
      (Reopens order fs access dir f arg → Unneeded f file ∨
        Continued (readOld fs access dir name) f.data ∨
        Undamaged (readOld fs access dir name) f.data) := by
  obtain ⟨data, hopen, rfl⟩ := Option.map_eq_some_iff.mp hnew
  have hD : WellFormed f.data :=
    hf ▸ wellFormed_calls (wellFormed_openFile depth wellFormed_empty hopen) hcalls
  have hunchanged : Unchanged { filename := some name, data } f := hf ▸ unchanged_calls _ _
  have hold : f.filename.bind (readOld fs access dir) = readOld fs access dir name := by
    rw [hunchanged.1, Option.bind_some]
  constructor
  · intro hsafe
    by_cases hneeded : Unneeded f file
    · -- the file is still the one the object was read from
      have hsame : f.filename = some name := hunchanged.1
      have hfile : name = file := Option.some.inj (hsame.symm.trans hneeded.2)
      refine ⟨fs, f, name, depth, _, ?_, hsame, hnew, fun g i => ?_⟩
      · unfold save
        unfold Unneeded at hneeded
        rw [htarget, Option.bind_some, if_pos hneeded]
      · dsimp only
        rw [get, get, (hunchanged.2 hneeded.1).2]
    · obtain ⟨hcontinued, hundamaged⟩ := hsafe.resolve_left hneeded
      obtain ⟨hcomments, hvalues⟩ := not_or.mp hcontinued
      have hprintable : Printable f.data := by
        refine ⟨hD, hundamaged.noItems, fun g i v hv hlast => hvalues ⟨g, i, v, hv, hlast⟩⟩
      have hsome : ((oldLines (readOld fs access dir name)).foldlM (saveLine order)
          { data := f.data }).isSome = true := by
        refine saveLines_isSome.mpr fun raw hraw hgarbage => hundamaged.noGarbage ?_
        exact List.mem_map.mpr ⟨raw, hraw, hgarbage⟩
      obtain ⟨m, hm⟩ := Option.isSome_iff_exists.mp hsome
      have hs : saveData order f.data (readOld fs access dir name) = _ := saveData_eq _ _
      rw [hm, Option.map_some] at hs
      refine reopens_of_readLines hD htarget hname hreplace hneeded (hold ▸ hs) fun opener => ?_
      obtain ⟨t, hread, hvalue⟩ : ∃ t, readLines opener { data := ∅ } _ = some t ∧ _ :=
        read_saveData hprintable (not_not.mp hcomments) hs
      refine ⟨t, hread, (get_eq_iff (fun g i => (hvalue g i).1) fun g i => (hvalue g i).2).mpr ?_⟩
      intro g i hfalsy hnone hprinted
      obtain ⟨hi, hnot⟩ := (printed_of_removed hnone).mp hprinted
      exact hnot (hundamaged.removed g i hfalsy hi hnone)
  · intro hreopens
    by_cases hneeded : Unneeded f file
    · exact Or.inl hneeded
    by_cases hcontinued : Continued (readOld fs access dir name) f.data
    · exact Or.inr (Or.inl hcontinued)
    obtain ⟨hcomments, hvalues⟩ := not_or.mp hcontinued
    obtain ⟨s, t, opener, hs, hread, hget⟩ :=
      readLines_of_reopens hD htarget hname hreplace hneeded hreopens
    rw [hold] at hs
    have hnil : [] ∉ f.data := fun hmem => by
      simp [readLines_of_noGroup hD hmem hs] at hread
    have hprintable : Printable f.data :=
      ⟨hD, hnil, fun g i v hv hlast => hvalues ⟨g, i, v, hv, hlast⟩⟩
    obtain ⟨t', hread', hvalue⟩ := read_saveData hprintable (not_not.mp hcomments) hs
    obtain rfl := Option.some.inj (hread'.symm.trans hread)
    have hremoved := (get_eq_iff (fun g i => (hvalue g i).1) fun g i => (hvalue g i).2).mp hget
    refine Or.inr (Or.inr ⟨?_, hnil, fun g i hfalsy hi hnone => ?_⟩)
    · intro hgarbage
      obtain ⟨raw, hraw, hkind⟩ := List.mem_map.mp hgarbage
      rw [saveData_eq, Option.map_eq_some_iff] at hs
      obtain ⟨m, hm, -⟩ := hs
      exact saveLines_isSome.mp (Option.isSome_of_mem hm) raw hraw hkind
    · by_contra hnot
      exact hremoved g i hfalsy hnone ((printed_of_removed hnone).mpr ⟨hi, hnot⟩)

end reopens

section examples

/-- A directory with one file. -/
def oneFile (text : String) : FileSystem Unit where
  read := fun _ name => if name = "/m".toList then some text.toList else none
  chdir := fun _ _ => none
  stdin := []

def allAccess : Access Unit where
  update := fun _ _ => true
  replace := fun _ _ => true

/-- Hashes that are listed as they were filled. -/
def asInserted : KeyOrder := ⟨id, fun _ => List.Perm.refl _⟩

theorem isFileName_m : IsFileName "/m".toList := ⟨by decide, by decide⟩

/-- The first item gets another value and the second is removed. -/
def exampleCalls : List Call := [.put ['g'] ['a'] ['2'], .removeItem ['g'] ['b']]

theorem reopens_example : ∃ f₀, new (oneFile "[g]\na=1\nb=1") () 1 "/m".toList = some f₀ ∧
    Reopens asInserted (oneFile "[g]\na=1\nb=1") allAccess ()
      (exampleCalls.foldl (Object.call asInserted) f₀) none := by
  let fs := oneFile "[g]\na=1\nb=1"
  let f (f₀ : Object) := exampleCalls.foldl (Object.call asInserted) f₀
  have hruns : ∃ f₀ ∈ new fs () 1 "/m".toList, (f f₀).target none = some "/m".toList ∧
      (f f₀).data.keys = [['g']] ∧ ((f f₀).data.items ['g']).keys = [['b'], ['a']] ∧
      (f f₀).data.value ['g'] ['a'] = some ['2'] ∧ (f f₀).data.value ['g'] ['b'] = none := by decide
  obtain ⟨f₀, hnew, htarget, hgroups, hitems, ha, hb⟩ := hruns
  have hkeys : ∀ g i, i ∈ (f f₀).data.items g → g = ['g'] ∧ (i = ['b'] ∨ i = ['a']) := by
    intro g i hi
    have hg := AList.mem_keys.mp (Data.mem_of_hasGroup (hasGroup_of_mem_items hi))
    obtain rfl : g = ['g'] := by simpa [hgroups] using hg
    exact ⟨rfl, by simpa [hitems] using AList.mem_keys.mp hi⟩
  refine ⟨f₀, hnew, (reopens_iff hnew ?_ rfl htarget isFileName_m rfl).1 (Or.inr ⟨?_, ?_⟩)⟩
  · have hg : IsGroup ['g'] := ⟨by simp, by decide⟩
    have ha : IsItem ['a'] := ⟨by simp, by decide⟩
    have hb : IsItem ['b'] := ⟨by simp, by decide⟩
    simp [exampleCalls, Call.Valid, hg, ha, hb, isBlank]
  · refine not_or.mpr ⟨not_not.mpr (by unfold CommentsEnd; decide), ?_⟩
    rintro ⟨g, i, v, hv, hlast⟩
    obtain ⟨rfl, rfl | rfl⟩ := hkeys g i (mem_items_of_value (Option.isSome_of_mem hv))
    · simp [f, hb] at hv
    · obtain rfl : ['2'] = v := Option.some.inj (ha.symm.trans hv)
      simp at hlast
  · refine ⟨by decide, fun hmem => ?_, fun g i _ hi hnone => ?_⟩
    · have hnil := AList.mem_keys.mp hmem
      simp [f, hgroups] at hnil
    · obtain ⟨rfl, rfl | rfl⟩ := hkeys g i hi
      · decide
      · simp [f, ha] at hnone

/-- An item that is put and removed again has a value in the saved file. -/
theorem not_reopens : ¬ ∀ (fs : FileSystem Unit) (access : Access Unit) (order : KeyOrder)
    (depth : Nat) (name file : Text) (f₀ : Object) (calls : List Call) (arg : Option Text),
    new fs () depth name = some f₀ → (∀ c ∈ calls, c.Valid) →
    (calls.foldl (Object.call order) f₀).target arg = some file → IsFileName file →
    access.replace () file = true →
    Reopens order fs access () (calls.foldl (Object.call order) f₀) arg := by
  intro h
  let fs := oneFile "[g]\na=1\n"
  let calls : List Call := [.put ['g'] ['b'] ['2'], .removeItem ['g'] ['b']]
  let f (f₀ : Object) := calls.foldl (Object.call asInserted) f₀
  have hruns : ∃ f₀ ∈ new fs () 1 "/m".toList, (f f₀).target none = some "/m".toList ∧
      (f f₀).modified = true ∧ get (f f₀).data ['g'] ['b'] = none ∧
      ∃ s ∈ saveData asInserted (f f₀).data ((f f₀).filename.bind (readOld fs allAccess ())),
        s.printed = ["[g]".toList, "a=1".toList, "b=".toList] := by decide
  obtain ⟨f₀, hnew, htarget, hmodified, hget, s, hs, hprinted⟩ := hruns
  have hgroup : IsGroup ['g'] := ⟨by simp, by decide⟩
  have hitem : IsItem ['b'] := ⟨by simp, by decide⟩
  have hcalls : ∀ c ∈ calls, c.Valid := by
    simp [calls, Call.Valid, hgroup, hitem, isBlank]
  obtain ⟨data, hopen, hf₀⟩ := Option.map_eq_some_iff.mp hnew
  have hD : WellFormed (f f₀).data := by
    refine wellFormed_calls ?_ hcalls
    exact hf₀ ▸ wellFormed_openFile 1 wellFormed_empty hopen
  have hreopens : Reopens asInserted fs allAccess () (f f₀) none :=
    h fs allAccess asInserted 1 _ _ f₀ calls none hnew hcalls htarget isFileName_m rfl
  obtain ⟨s', t, opener, hs', hread, hsame⟩ := readLines_of_reopens hD htarget isFileName_m rfl
    (fun hneeded => by simp [hneeded.1] at hmodified) hreopens
  obtain rfl := Option.some.inj (hs'.symm.trans hs)
  have hvalue : (readLines opener { data := ∅ } ["[g]".toList, "a=1".toList, "b=".toList]).bind
      (fun t => get t.data ['g'] ['b']) = some [] := rfl
  rw [← hprinted, hread, Option.bind_some, hsame, hget] at hvalue
  simp at hvalue

end examples

end Awb.Inifile.Perl
