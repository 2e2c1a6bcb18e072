import Awb.Inifile.SaveLoop

/-! What `save` prints, read back by `open` line by line. The items that are read back are those of
the groups of the old file, as far as they are in its lines or new, and those of new groups. -/

namespace Awb.Inifile.Perl

/-- The groups of the lines of a file in order, each with the items that are in it. -/
def sections : Option Text → List Text → List LineKind → List (Text × List Text)
  | group, items, [] => (group.map (·, items)).toList
  | group, items, .group name :: lines =>
    (group.map (·, items)).toList ++ sections (some name) [] lines
  | group, items, .item name _ :: lines => sections group (name :: items) lines
  | group, items, _ :: lines => sections group items lines

/-- A value is printed for an item where a group was in the old file. -/
def PrintsItem (D : Data) (sec : Text × List Text) (group item : Text) : Prop :=
  sec.1 = group ∧ item ∈ D.items group ∧ (item ∈ sec.2 → (D.value group item).isSome)

section sim
variable {openFile : Text → Data → Option Data} {order : KeyOrder} {D : Data} {s s' : SaveState}
  {t : State}

/-- What was printed up to a line, when it is read back. -/
structure SaveSim (openFile : Text → Data → Option Data) (D : Data) (s : SaveState) (t : State) :
    Prop where
  read : readLines openFile { data := ∅ } s.printed = some t
  more : t.more = []
  curgroup : ∀ g ∈ s.curgroup, D.hasGroup g = true → t.curgroup = some g
  value : ∀ g i v, falsy g = false → t.data.value g i = some v → v = (D.value g i).getD []
  done : ∀ g ∈ s.curgroup, ∀ i ∈ s.itemsDone, (D.value g i).isSome → (t.data.value g i).isSome

/-- Data that `save` does not damage when it prints them. -/
structure Printable (D : Data) : Prop where
  wellFormed : WellFormed D
  noItems : [] ∉ D
  notContinued : ∀ g i v, D.value g i = some v → v.getLast? ≠ some '\\'

theorem hasGroup_of_mem_items {g i : Text} (h : i ∈ D.items g) : D.hasGroup g = true := by
  by_contra hnot
  rw [Data.items_of_not_hasGroup hnot] at h
  exact AList.notMem_empty i h

theorem mem_items_of_value {g i : Text} (h : (D.value g i).isSome = true) : i ∈ D.items g := by
  obtain ⟨v, hv⟩ := Option.isSome_iff_exists.mp h
  exact AList.lookup_isSome.mp (Option.isSome_of_mem (Option.join_eq_some_iff.mp hv))

theorem get_of_not_falsy {g : Text} (h : falsy g = false) (i : Text) : get D g i = D.value g i := by
  rw [get, h]
  rfl

/-- The lines of new items of a group that is read. -/
theorem readLines_newItems (hD : Printable D) {g : Text} {items : List Text}
    (hitems : ∀ i ∈ items, i ∈ D.items g) {d : Data} (hd : ∀ g, d.items g = D.items g)
    (hmore : t.more = []) (hcur : t.curgroup = some g) :
    ∃ data, readLines openFile t (items.map (newItemLine d g)) = some { t with data } ∧
      ∀ g' i, data.value g' i =
        if g' = g ∧ i ∈ items then some ((get D g i).getD []) else t.data.value g' i := by
  rw [newItems_eq items hd]
  refine readLines_items (fun i hi => ⟨hD.wellFormed.item g i (hitems i hi),
    isValue_getD hD.wellFormed g i, ?_⟩) hmore hcur
  cases hget : get D g i with
  | none => simp
  | some v => exact hD.notContinued g i v (value_of_get hget)

theorem mem_newItems (hinv : SaveInv D s) {g i : Text} :
    i ∈ (getItemlist order (s.data.vivify g) g).filter (!s.itemsDone.contains ·) ↔
      i ∈ D.items g ∧ i ∉ s.itemsDone := by
  simp [mem_getItemlist, hinv.items]

theorem SaveSim.finish (hD : Printable D) (hinv : SaveInv D s) (h : SaveSim openFile D s t) :
    ∃ t', SaveSim openFile D (finishGroup order s) t' ∧ ∀ g i, (t'.data.value g i).isSome = true ↔
      (t.data.value g i).isSome = true ∨
        ∃ sec ∈ (s.curgroup.map (·, s.itemsDone)).toList, PrintsItem D sec g i := by
  unfold finishGroup
  split
  · rename_i hcur
    exact ⟨t, h, by simp [hcur]⟩
  rename_i g hcur
  have hsec : ∀ g' i, (∃ sec ∈ (s.curgroup.map (·, s.itemsDone)).toList, PrintsItem D sec g' i) ↔
      PrintsItem D (g, s.itemsDone) g' i := by simp [hcur]
  simp only [hsec]
  have hdata : ∀ g', (s.data.vivify g).items g' = D.items g' := by simpa using hinv.items
  have hmem : ∀ i, i ∈ (getItemlist order (s.data.vivify g) g).filter (!s.itemsDone.contains ·) ↔
      i ∈ D.items g ∧ i ∉ s.itemsDone := fun i => mem_newItems hinv
  by_cases hgroup : D.hasGroup g = true
  · obtain ⟨data, hread, hvalue⟩ : ∃ data, readLines openFile t _ = some { t with data } ∧ _ :=
      readLines_newItems hD (fun i hi => ((hmem i).mp hi).1) hdata h.more
        (h.curgroup g hcur hgroup)
    have hmono : ∀ g' i, (t.data.value g' i).isSome = true → (data.value g' i).isSome = true := by
      intro g' i hsome
      rw [hvalue]
      split <;> simp [hsome]
    refine ⟨{ t with data }, ⟨?_, h.more, h.curgroup, ?_, ?_⟩, fun g' i => ⟨?_, ?_⟩⟩
    · dsimp only
      rw [readLines_append h.read, hread]
    · intro g' i v hfalsy hv
      dsimp only at hv
      rw [hvalue] at hv
      split at hv
      · rename_i hnew
        obtain ⟨rfl, -⟩ := hnew
        rw [← Option.some.inj hv, get_of_not_falsy hfalsy]
      · exact h.value g' i v hfalsy hv
    · exact fun g' hg' i hi hsome => hmono g' i (h.done g' hg' i hi hsome)
    · intro hsome
      dsimp only at hsome
      rw [hvalue] at hsome
      split at hsome
      · rename_i hnew
        obtain ⟨rfl, hi⟩ := hnew
        exact Or.inr ⟨rfl, ((hmem i).mp hi).1, fun hdone => absurd hdone ((hmem i).mp hi).2⟩
      · exact Or.inl hsome
    · rintro (hsome | ⟨rfl, hi, hdone⟩)
      · exact hmono g' i hsome
      · by_cases hin : i ∈ s.itemsDone
        · exact hmono g i (h.done g hcur i hin (hdone hin))
        · dsimp only
          rw [hvalue, if_pos ⟨rfl, (hmem i).mpr ⟨hi, hin⟩⟩]
          rfl
  · -- a group that was removed has no items
    have hnone : ∀ i, i ∉ D.items g := fun i hi => hgroup (hasGroup_of_mem_items hi)
    have hnil : (getItemlist order (s.data.vivify g) g).filter (!s.itemsDone.contains ·) = [] :=
      List.eq_nil_iff_forall_not_mem.mpr fun i hi => hnone i ((hmem i).mp hi).1
    refine ⟨t, ⟨?_, h.more, h.curgroup, h.value, h.done⟩, fun g' i => ⟨Or.inl, ?_⟩⟩
    · dsimp only
      rw [hnil, List.map_nil, List.append_nil, h.read]
    · rintro (hsome | ⟨rfl, hi, -⟩)
      · exact hsome
      · exact absurd hi (hnone i)

/-- The comments that are kept do not continue. -/
def Ended (s : SaveState) : Prop := ∀ c ∈ s.comments, c.getLast? ≠ some '\\'

theorem readLines_comments {comments : List Text}
    (hcomments : ∀ c ∈ comments, (lineKind c).skips = true ∧ c.getLast? ≠ some '\\')
    (hmore : t.more = []) : readLines openFile t comments = some t := by
  induction comments with
  | nil => rfl
  | cons c comments ih =>
    obtain ⟨⟨hskip, hlast⟩, hrest⟩ := List.forall_mem_cons.mp hcomments
    rw [← List.singleton_append, readLines_append (readLines_skip hskip hlast hmore)]
    exact ih hrest

theorem SaveSim.spill (hinv : SaveInv D s) (h : SaveSim openFile D s t) (hended : Ended s) :
    SaveSim openFile D (spillComments s) t := by
  refine { h with read := ?_ }
  refine (readLines_append h.read _).trans ?_
  exact readLines_comments (fun c hc => ⟨(hinv.comments c hc).2, hended c hc⟩) h.more

theorem SaveSim.enter (hinv : SaveInv D s) (h : SaveSim openFile D s t) {group : Text}
    (hgroup : IsGroup group) : ∃ cur, SaveSim openFile D (startGroup s group) { t with curgroup := cur } := by
  by_cases hdefined : s.data.hasGroup group = true
  · refine ⟨some group, ⟨?_, h.more, ?_, h.value, by simp [startGroup]⟩⟩
    · rw [startGroup, if_pos hdefined, readLines_append h.read, readLines_group hgroup h.more]
    · intro g hg _
      exact hg
  · refine ⟨t.curgroup, ⟨?_, h.more, ?_, h.value, by simp [startGroup]⟩⟩
    · rw [startGroup, if_neg hdefined, List.append_nil, h.read]
    · intro g hg hD
      obtain rfl := Option.some.inj hg
      exact absurd (hinv.hasGroup _ hD) hdefined

theorem SaveSim.print (hD : Printable D) (hinv : SaveInv D s) (h : SaveSim openFile D s t)
    {item : Text} (hitem : IsItem item) :
    ∃ data, SaveSim openFile D (printItem s item) { t with data } ∧
      ∀ g i, (data.value g i).isSome = true ↔ (t.data.value g i).isSome = true ∨
        s.curgroup = some g ∧ i = item ∧ (D.value g i).isSome = true := by
  unfold printItem
  cases hvalue : s.data.value (s.curgroup.getD []) item with
  | none =>
    have hnone : ∀ g, s.curgroup = some g → D.value g item = none := by
      intro g hg
      rw [← hinv.value, ← hvalue, hg, Option.getD_some]
    refine ⟨t.data, ⟨by simpa using h.read, h.more, h.curgroup, h.value, ?_⟩, fun g i => ?_⟩
    · intro g hg i hi hsome
      rcases List.mem_cons.mp hi with rfl | hi
      · simp [hnone g hg] at hsome
      · exact h.done g hg i hi hsome
    · refine ⟨Or.inl, fun hor => hor.elim id ?_⟩
      rintro ⟨hg, rfl, hsome⟩
      simp [hnone g hg] at hsome
  | some v =>
    rw [hinv.value] at hvalue
    have hgroup := hasGroup_of_mem_items (mem_items_of_value (Option.isSome_of_mem hvalue))
    obtain ⟨g, hcur⟩ : ∃ g, s.curgroup = some g := by
      cases hcur : s.curgroup with
      | some g => exact ⟨g, rfl⟩
      | none =>
        rw [hcur] at hgroup
        exact absurd (Data.mem_of_hasGroup hgroup) hD.noItems
    rw [hcur, Option.getD_some] at hvalue hgroup
    have hread : readLines openFile t [itemLine item v] =
        some { t with data := t.data.set (t.curgroup.getD []) item (some v) } :=
      readLines_item hitem (hD.wellFormed.value g item v hvalue) (hD.notContinued g item v hvalue)
        h.more
    have htcur := h.curgroup g hcur hgroup
    rw [htcur, Option.getD_some] at hread
    refine ⟨t.data.set g item (some v), ⟨?_, h.more, h.curgroup, ?_, ?_⟩, fun g' i => ?_⟩
    · simp only [Option.map_some, Option.toList_some]
      rw [readLines_append h.read, hread, htcur]
    · intro g' i v' hfalsy hv
      dsimp only at hv
      rw [Data.value_set] at hv
      split at hv
      · rename_i heq
        obtain ⟨rfl, rfl⟩ := heq
        rw [hvalue, ← Option.some.inj hv, Option.getD_some]
      · exact h.value g' i v' hfalsy hv
    · intro g' hg' i hi hsome
      dsimp only
      rw [Data.value_set]
      split
      · rfl
      · rename_i hne
        obtain rfl : g = g' := Option.some.inj (hcur.symm.trans hg')
        rcases List.mem_cons.mp hi with rfl | hi
        · exact absurd ⟨rfl, rfl⟩ hne
        · exact h.done g hg' i hi hsome
    · rw [Data.value_set]
      split
      · rename_i heq
        obtain ⟨rfl, rfl⟩ := heq
        simp [hcur, hvalue]
      · rename_i hne
        refine ⟨Or.inl, fun hor => hor.elim id ?_⟩
        rintro ⟨hg, rfl, -⟩
        exact absurd ⟨Option.some.inj (hg.symm.trans hcur), rfl⟩ hne

theorem finishGroup_eq (s : SaveState) : ∃ data printed, finishGroup order s =
    { s with data, printed } := by
  unfold finishGroup
  split
  · exact ⟨s.data, s.printed, rfl⟩
  · exact ⟨_, _, rfl⟩

/-- The items that are read back, now or from the lines to come. -/
def Written (D : Data) (s : SaveState) (t : State) (lines : List LineKind) (g i : Text) : Prop :=
  (t.data.value g i).isSome = true ∨
    ∃ sec ∈ sections s.curgroup s.itemsDone lines, PrintsItem D sec g i

/-- A group that is entered stays among the sections of the lines to come. -/
theorem exists_section (g : Text) (items : List Text) (lines : List LineKind) :
    ∃ items', (g, items') ∈ sections (some g) items lines := by
  induction lines generalizing items with
  | nil => exact ⟨items, by simp [sections]⟩
  | cons line lines ih =>
    cases line with
    | group name => exact ⟨items, by simp [sections]⟩
    | item name value => exact ih (name :: items)
    | _ => exact ih items

/-- The lines of the old file are groups, items, or lines that only add to the comments. -/
theorem saveLine_cases {raw : Text} (hstep : saveLine order s raw = some s') :
    (∃ name, lineKind (chop raw) = .group name ∧
      s' = startGroup (spillComments (finishGroup order s)) name) ∨
    (∃ name value, lineKind (chop raw) = .item name value ∧
      s' = printItem (spillComments s) name) ∨
    (∀ g items lines, sections g items (lineKind (chop raw) :: lines) = sections g items lines) ∧
      ∃ added, s' = { s with comments := s.comments ++ added } ∧
        (added = [] ∨ added = [[]] ∨ lineKind (chop raw) = .comment ∧ added = [chop raw]) := by
  unfold saveLine at hstep
  cases hkind : lineKind (chop raw) with
  | group name =>
    simp only [hkind, Option.some.injEq] at hstep
    exact Or.inl ⟨name, rfl, hstep.symm⟩
  | item name value =>
    simp only [hkind, Option.some.injEq] at hstep
    exact Or.inr (Or.inl ⟨name, value, rfl, hstep.symm⟩)
  | includes name =>
    simp only [hkind, Option.some.injEq] at hstep
    exact Or.inr (Or.inr ⟨fun _ _ _ => rfl, [], by simp [hstep], Or.inl rfl⟩)
  | comment =>
    simp only [hkind, Option.some.injEq] at hstep
    exact Or.inr (Or.inr ⟨fun _ _ _ => rfl, _, hstep.symm, Or.inr (Or.inr ⟨rfl, rfl⟩)⟩)
  | blank =>
    simp only [hkind, Option.some.injEq] at hstep
    refine Or.inr (Or.inr ⟨fun _ _ _ => rfl, ?_⟩)
    unfold saveBlank at hstep
    split at hstep
    · exact ⟨[], by simp [hstep], Or.inl rfl⟩
    · exact ⟨_, hstep.symm, Or.inr (Or.inl rfl)⟩
  | garbage => simp [hkind] at hstep

theorem SaveSim.step (hD : Printable D) (hinv : SaveInv D s) (h : SaveSim openFile D s t)
    (hended : Ended s) {raw : Text} (hstep : saveLine order s raw = some s') :
    ∃ t', SaveSim openFile D s' t' ∧ ∀ lines g i,
      Written D s' t' lines g i ↔ Written D s t (lineKind (chop raw) :: lines) g i := by
  rcases saveLine_cases hstep with ⟨name, hkind, rfl⟩ | ⟨name, value, hkind, rfl⟩ |
    ⟨hsections, added, rfl, -⟩
  · have hinv' : SaveInv D (finishGroup order s) := hinv.finish hD.wellFormed
    obtain ⟨t', hsim, hvalue⟩ := h.finish hD hinv
    have hended' : Ended (finishGroup order s) := by
      obtain ⟨data, printed, heq⟩ : ∃ data printed, finishGroup order s = { s with data, printed } :=
        finishGroup_eq s
      rw [heq]
      exact hended
    obtain ⟨cur, hentered⟩ := (hsim.spill hinv' hended').enter hinv'.spill (isGroup_of_lineKind hkind)
    refine ⟨_, hentered, fun lines g i => ?_⟩
    have hsections : sections s.curgroup s.itemsDone (.group name :: lines) =
        (s.curgroup.map (·, s.itemsDone)).toList ++ sections (some name) [] lines := rfl
    have hstart : sections (startGroup (spillComments (finishGroup order s)) name).curgroup
        (startGroup (spillComments (finishGroup order s)) name).itemsDone lines =
          sections (some name) [] lines := rfl
    rw [hkind, Written, Written, hsections, hstart]
    dsimp only
    rw [hvalue, or_assoc]
    refine or_congr_right ?_
    simp only [List.mem_append, or_and_right, exists_or]
  · have hitem := isItem_of_lineKind hkind
    obtain ⟨data, hsim, hvalue⟩ := (h.spill hinv hended).print hD hinv.spill hitem
    refine ⟨_, hsim, fun lines g i => ?_⟩
    have hsections : sections s.curgroup s.itemsDone (.item name value :: lines) =
        sections s.curgroup (name :: s.itemsDone) lines := rfl
    have hprint : sections (printItem (spillComments s) name).curgroup
        (printItem (spillComments s) name).itemsDone lines =
          sections s.curgroup (name :: s.itemsDone) lines := rfl
    rw [hkind, Written, Written, hsections, hprint]
    dsimp only
    rw [hvalue]
    constructor
    · rintro ((hsome | ⟨hg, rfl, hsome⟩) | hsec)
      · exact Or.inl hsome
      · -- what was just printed is among what the group prints anyway
        obtain ⟨items, hmem⟩ := exists_section g (i :: s.itemsDone) lines
        have hcur : s.curgroup = some g := hg
        exact Or.inr ⟨(g, items), hcur ▸ hmem, rfl, mem_items_of_value hsome, fun _ => hsome⟩
      · exact Or.inr hsec
    · exact fun hor => hor.imp_left Or.inl
  · refine ⟨t, ⟨h.read, h.more, h.curgroup, h.value, h.done⟩, fun lines g i => ?_⟩
    rw [Written, Written, hsections]

/-- The groups that were done, and those of the lines to come. -/
def Visited (s : SaveState) (lines : List LineKind) (g : Text) : Prop :=
  g ∈ s.groupsDone ∨ ∃ sec ∈ sections s.curgroup s.itemsDone lines, sec.1 = g

theorem visited_step (hinv : SaveInv D s) {raw : Text} (hstep : saveLine order s raw = some s')
    (lines : List LineKind) (g : Text) :
    Visited s' lines g ↔ Visited s (lineKind (chop raw) :: lines) g := by
  rcases saveLine_cases hstep with ⟨name, hkind, rfl⟩ | ⟨name, value, hkind, rfl⟩ |
    ⟨hsections, added, rfl, -⟩
  · obtain ⟨data, printed, heq⟩ : ∃ data printed, finishGroup order s = { s with data, printed } :=
      finishGroup_eq s
    rw [hkind, heq]
    simp only [Visited, startGroup, spillComments, sections, List.mem_cons, List.mem_append,
      Option.mem_toList, Option.map_eq_some_iff]
    constructor
    · rintro ((rfl | hdone) | ⟨sec, hsec, rfl⟩)
      · obtain ⟨items, hmem⟩ := exists_section g [] lines
        exact Or.inr ⟨_, Or.inr hmem, rfl⟩
      · exact Or.inl hdone
      · exact Or.inr ⟨sec, Or.inr hsec, rfl⟩
    · rintro (hdone | ⟨sec, ⟨g', hg', rfl⟩ | hsec, rfl⟩)
      · exact Or.inl (Or.inr hdone)
      · exact Or.inl (Or.inr (hinv.curgroup g' hg'))
      · exact Or.inr ⟨sec, hsec, rfl⟩
  · rw [hkind]
    exact Iff.rfl
  · rw [Visited, Visited, hsections]

/-- A comment that continues is the last line of the old file, if any is. -/
theorem Ended.step (hended : Ended s) {raw : Text} (hstep : saveLine order s raw = some s') :
    (∀ c ∈ s'.comments.dropLast, c.getLast? ≠ some '\\') ∧
      ((lineKind (chop raw) = .comment → (chop raw).getLast? ≠ some '\\') → Ended s') := by
  rcases saveLine_cases hstep with ⟨name, hkind, rfl⟩ | ⟨name, value, hkind, rfl⟩ |
    ⟨-, added, rfl, hadded⟩
  · exact ⟨by simp [startGroup, spillComments], fun _ => by simp [Ended, startGroup, spillComments]⟩
  · exact ⟨by simp [printItem, spillComments], fun _ => by simp [Ended, printItem, spillComments]⟩
  · rcases hadded with rfl | rfl | ⟨hkind, rfl⟩
    · rw [List.append_nil]
      exact ⟨fun c hc => hended c (List.dropLast_subset _ hc), fun _ => hended⟩
    · rw [List.dropLast_concat]
      exact ⟨hended, fun _ => List.forall_mem_append.mpr ⟨hended, by simp⟩⟩
    · rw [List.dropLast_concat]
      exact ⟨hended, fun hraw => List.forall_mem_append.mpr ⟨hended, by simpa using hraw hkind⟩⟩

/-- The lines of a file, of which only the last comment may continue. -/
theorem SaveSim.run (hD : Printable D) {raws : List Text} (hinv : SaveInv D s)
    (h : SaveSim openFile D s t) (hended : Ended s) (hraws : ∀ raw ∈ raws, '\n' ∉ chop raw)
    (hcomments : ∀ raw ∈ raws, lineKind (chop raw) = .comment → (chop raw).getLast? ≠ some '\\')
    (hsteps : raws.foldlM (saveLine order) s = some s') :
    Ended s' ∧ ∃ t', SaveSim openFile D s' t' ∧ ∀ lines g,
      (∀ i, Written D s' t' lines g i ↔
        Written D s t (raws.map (fun raw => lineKind (chop raw)) ++ lines) g i) ∧
      (Visited s' lines g ↔ Visited s (raws.map (fun raw => lineKind (chop raw)) ++ lines) g) := by
  induction raws generalizing s t with
  | nil =>
    obtain rfl := Option.some.inj hsteps
    exact ⟨hended, t, h, fun _ _ => ⟨fun _ => Iff.rfl, Iff.rfl⟩⟩
  | cons raw raws ih =>
    rw [List.foldlM_cons] at hsteps
    obtain ⟨m, hstep, hrest⟩ := Option.bind_eq_some_iff.mp hsteps
    obtain ⟨hraw, hraws⟩ := List.forall_mem_cons.mp hraws
    obtain ⟨hcomment, hcomments⟩ := List.forall_mem_cons.mp hcomments
    obtain ⟨u, hsim, hwritten⟩ := h.step hD hinv hended hstep
    obtain ⟨hended', t', hsim', hrun⟩ := ih (hinv.step hD.wellFormed hraw hstep) hsim
      ((hended.step hstep).2 hcomment) hraws hcomments hrest
    refine ⟨hended', t', hsim', fun lines g => ⟨fun i => ?_, ?_⟩⟩
    · exact ((hrun lines g).1 i).trans (hwritten _ g i)
    · exact (hrun lines g).2.trans (visited_step hinv hstep _ g)

/-- The kinds of the lines of a file, as `save` sees them. -/
def lineKinds (raws : List Text) : List LineKind := raws.map fun raw => lineKind (chop raw)

/-- No comment continues, unless it is the last line. -/
def CommentsEnd (raws : List Text) : Prop :=
  ∀ raw ∈ raws.dropLast, lineKind (chop raw) = .comment → (chop raw).getLast? ≠ some '\\'

theorem SaveSim.runAll (hD : Printable D) {raws : List Text}
    (hraws : ∀ raw ∈ raws, '\n' ∉ chop raw) (hcomments : CommentsEnd raws)
    (hsteps : raws.foldlM (saveLine order) { data := D } = some s') :
    (∀ c ∈ s'.comments.dropLast, c.getLast? ≠ some '\\') ∧
      ∃ t', SaveSim openFile D s' t' ∧ ∀ g,
        (∀ i, Written D s' t' [] g i ↔
          ∃ sec ∈ sections none [] (lineKinds raws), PrintsItem D sec g i) ∧
        (Visited s' [] g ↔ ∃ sec ∈ sections none [] (lineKinds raws), sec.1 = g) := by
  have hinv := SaveInv.initial D
  have hsim : SaveSim openFile D { data := D } { data := ∅ } :=
    ⟨rfl, rfl, by simp, by simp [Data.value, Data.items], by simp⟩
  have hwritten : ∀ lines g i, Written D { data := D } { data := ∅ } lines g i ↔
      ∃ sec ∈ sections none [] lines, PrintsItem D sec g i := by
    simp [Written, Data.value, Data.items]
  have hvisited : ∀ lines g, Visited { data := D } lines g ↔
      ∃ sec ∈ sections none [] lines, sec.1 = g := by simp [Visited]
  rcases List.eq_nil_or_concat' raws with rfl | ⟨init, last, rfl⟩
  · obtain rfl := Option.some.inj hsteps
    exact ⟨by simp, _, hsim, fun g => ⟨fun i => hwritten [] g i, hvisited [] g⟩⟩
  · rw [CommentsEnd, List.dropLast_concat] at hcomments
    rw [List.foldlM_append] at hsteps
    obtain ⟨m, hinit, hlast⟩ := Option.bind_eq_some_iff.mp hsteps
    have hstep : saveLine order m last = some s' := by simpa using hlast
    obtain ⟨hrawsInit, -⟩ := List.forall_mem_append.mp hraws
    obtain ⟨hended, u, husim, hrun⟩ :=
      hsim.run hD hinv (by simp [Ended]) hrawsInit hcomments hinit
    have hminv : SaveInv D m := hinv.run hD.wellFormed hrawsInit hinit
    obtain ⟨t', hsim', hstepWritten⟩ := husim.step hD hminv hended hstep
    refine ⟨(hended.step hstep).1, t', hsim', fun g => ⟨fun i => ?_, ?_⟩⟩
    · rw [hstepWritten, (hrun _ g).1 i, hwritten, lineKinds, List.map_append]
      rfl
    · rw [visited_step hminv hstep, (hrun _ g).2, hvisited, lineKinds, List.map_append]
      rfl

theorem readLines_lastComments {comments : List Text}
    (hskip : ∀ c ∈ comments, (lineKind c).skips = true)
    (hlast : ∀ c ∈ comments.dropLast, c.getLast? ≠ some '\\') (hmore : t.more = []) :
    ∃ more, readLines openFile t comments = some { t with more } ∧
      (lineKind more).skips = true := by
  rcases List.eq_nil_or_concat' comments with rfl | ⟨init, c, rfl⟩
  · exact ⟨[], by rw [← hmore]; rfl, by decide⟩
  · rw [List.dropLast_concat] at hlast
    obtain ⟨hinit, hc⟩ := List.forall_mem_append.mp hskip
    rw [readLines_append (readLines_comments (fun c hc => ⟨hinit c hc, hlast c hc⟩) hmore)]
    exact readLines_last (hc c (List.mem_singleton_self c)) hmore

/-- What was printed when the old file is left, when it is read back. -/
structure SpillSim (openFile : Text → Data → Option Data) (D : Data) (s : SaveState) (t : State) :
    Prop where
  read : readLines openFile { data := ∅ } s.printed = some t
  more : (lineKind t.more).skips = true
  value : ∀ g i v, falsy g = false → t.data.value g i = some v → v = (D.value g i).getD []

theorem SaveSim.atEnd (hD : Printable D) (hinv : SaveInv D s) (h : SaveSim openFile D s t)
    (hlast : ∀ c ∈ s.comments.dropLast, c.getLast? ≠ some '\\') :
    ∃ t', SpillSim openFile D (leftover order s) t' ∧ ∀ g i,
      (t'.data.value g i).isSome = true ↔ Written D s t [] g i := by
  unfold leftover
  split
  · rename_i hcur
    refine ⟨t, ⟨h.read, by rw [h.more]; rfl, h.value⟩, fun g i => ?_⟩
    simp [Written, sections, hcur]
  · obtain ⟨t', hsim, hvalue⟩ :
        ∃ t', SaveSim openFile D (finishGroup order s) t' ∧ ∀ g i, _ ↔ _ := h.finish hD hinv
    obtain ⟨data, printed, heq⟩ : ∃ data printed, finishGroup order s = { s with data, printed } :=
      finishGroup_eq s
    obtain ⟨more, hread, hmore⟩ : ∃ more, readLines openFile t' s.comments = some { t' with more } ∧
        (lineKind more).skips = true :=
      readLines_lastComments (fun c hc => (hinv.comments c hc).2) hlast hsim.more
    refine ⟨{ t' with more }, ⟨?_, hmore, hsim.value⟩, fun g i => hvalue g i⟩
    have hcomments : (finishGroup order s).comments = s.comments := by rw [heq]
    rw [spillComments, hcomments, readLines_append hsim.read, hread]

theorem SpillSim.spillGroup (hD : Printable D) (hinv : SaveInv D s) (h : SpillSim openFile D s t)
    {group : Text} (hgroup : group ∈ s.data) :
    ∃ t', SpillSim openFile D (newGroup order s group) t' ∧ ∀ g i,
      (t'.data.value g i).isSome = true ↔ (t.data.value g i).isSome = true ∨
        g = group ∧ g ∉ s.groupsDone ∧ i ∈ D.items g := by
  unfold newGroup
  split
  · rename_i hdone
    have hdone : group ∈ s.groupsDone := by simpa using hdone
    refine ⟨t, h, fun g i => ⟨Or.inl, fun hor => hor.elim id ?_⟩⟩
    rintro ⟨rfl, hnot, -⟩
    exact absurd hdone hnot
  · rename_i hdone
    have hdone : group ∉ s.groupsDone := by simpa using hdone
    have hmem := (hinv.of_mem group hgroup).resolve_right hdone
    have hname : IsGroup group :=
      (hD.wellFormed.group group hmem).resolve_left fun he => hD.noItems (he ▸ hmem)
    have hdata : ∀ g, (s.data.vivify group).items g = D.items g := by simpa using hinv.items
    have hitems : ∀ i, i ∈ getItemlist order (s.data.vivify group) group ↔ i ∈ D.items group := by
      simp [mem_getItemlist, hinv.items]
    obtain ⟨data, hread, hvalue⟩ : ∃ data, readLines openFile
        { t with more := [], curgroup := some group } _ =
          some { t with more := [], curgroup := some group, data } ∧ _ :=
      readLines_newItems hD (fun i hi => (hitems i).mp hi) hdata rfl rfl
    let u : State := { t with more := [], curgroup := some group, data }
    refine ⟨u, ⟨?_, rfl, ?_⟩, fun g i => ?_⟩
    · dsimp only
      rw [readLines_append h.read, ← List.singleton_append, readLines_append (readLines_blank h.more),
        ← List.singleton_append, readLines_append (readLines_group hname rfl), hread]
    · intro g i v hfalsy hv
      dsimp only [u] at hv
      rw [hvalue] at hv
      split at hv
      · rename_i hnew
        obtain ⟨rfl, -⟩ := hnew
        rw [← Option.some.inj hv, get_of_not_falsy hfalsy]
      · exact h.value g i v hfalsy hv
    · dsimp only [u]
      rw [hvalue]
      simp only [hitems]
      by_cases hg : g = group
      · subst hg
        by_cases hi : i ∈ D.items g
        · simp [hi, hdone]
        · simp [hi]
      · simp [hg]

theorem SpillSim.spillGroups (hD : Printable D) (hinv : SaveInv D s) (h : SpillSim openFile D s t)
    {groups : List Text} (hgroups : ∀ g ∈ groups, g ∈ s.data) :
    ∃ t', SpillSim openFile D (groups.foldl (newGroup order) s) t' ∧ ∀ g i,
      (t'.data.value g i).isSome = true ↔ (t.data.value g i).isSome = true ∨
        g ∈ groups ∧ g ∉ s.groupsDone ∧ i ∈ D.items g := by
  induction groups generalizing s t with
  | nil => exact ⟨t, h, by simp⟩
  | cons group groups ih =>
    obtain ⟨hgroup, hrest⟩ := List.forall_mem_cons.mp hgroups
    obtain ⟨u, husim, huvalue⟩ :
        ∃ u, SpillSim openFile D (newGroup order s group) u ∧ ∀ g i, _ ↔ _ :=
      h.spillGroup hD hinv hgroup
    obtain ⟨hinv', hmem⟩ := @SaveInv.spillGroup order D s group hD.wellFormed hinv hgroup
    obtain ⟨t', hsim, hvalue⟩ := ih hinv' husim fun g hg => (hmem g).mpr (hrest g hg)
    refine ⟨t', hsim, fun g i => ?_⟩
    rw [hvalue, huvalue, groupsDone_newGroup, List.mem_cons, or_assoc, or_and_right]

/-- The items that `save` prints: those of the groups of the old file, and those of new groups. -/
def Printed (D : Data) (lines : List LineKind) (g i : Text) : Prop :=
  (∃ sec ∈ sections none [] lines, PrintsItem D sec g i) ∨
    (∀ sec ∈ sections none [] lines, sec.1 ≠ g) ∧ i ∈ D.items g

/-- The lines of the old file, if there is one. -/
def oldLines (old : Option Text) : List Text := (old.map rawLines).getD []

theorem saveData_eq (D : Data) (old : Option Text) : saveData order D old =
    ((oldLines old).foldlM (saveLine order) { data := D }).map fun s =>
      (getGrouplist order (leftover order s).data).foldl (newGroup order) (leftover order s) := by
  cases old with
  | none => rfl
  | some text =>
    rw [saveData, oldLines, Option.map_some, Option.getD_some]
    cases (rawLines text).foldlM (saveLine order) { data := D } <;> rfl

theorem newline_not_mem_oldLines {old : Option Text} : ∀ raw ∈ oldLines old, '\n' ∉ chop raw := by
  cases old with
  | none => simp [oldLines]
  | some text => exact fun raw hraw => newline_not_mem_chop hraw

theorem mem_getGrouplist {d : Data} {g : Text} : g ∈ getGrouplist order d ↔ g ∈ d := by
  rw [getGrouplist, (order.perm _).mem_iff, AList.mem_keys]

/-- What is read back of a saved file are the printed items, with the values of the data. -/
theorem read_saveData (hD : Printable D) {old : Option Text} (hcomments : CommentsEnd (oldLines old))
    (hsave : saveData order D old = some s) :
    ∃ t, readLines openFile { data := ∅ } s.printed = some t ∧ ∀ g i,
      ((t.data.value g i).isSome = true ↔ Printed D (lineKinds (oldLines old)) g i) ∧
      ∀ v, falsy g = false → t.data.value g i = some v → v = (D.value g i).getD [] := by
  rw [saveData_eq, Option.map_eq_some_iff] at hsave
  obtain ⟨m, hlines, rfl⟩ := hsave
  obtain ⟨hlast, t, hsim, hrun⟩ : _ ∧ ∃ t, SaveSim openFile D m t ∧ ∀ g, _ ∧ _ :=
    SaveSim.runAll hD newline_not_mem_oldLines hcomments hlines
  have hinv : SaveInv D m :=
    (SaveInv.initial D).run hD.wellFormed newline_not_mem_oldLines hlines
  obtain ⟨u, hspill, huvalue⟩ : ∃ u, SpillSim openFile D (leftover order m) u ∧ ∀ g i, _ ↔ _ :=
    hsim.atEnd hD hinv hlast
  have hinv' : SaveInv D (leftover order m) := hinv.atEnd hD.wellFormed
  obtain ⟨t', hsim', hvalue⟩ : ∃ t', SpillSim openFile D
      ((getGrouplist order (leftover order m).data).foldl (newGroup order) (leftover order m)) t' ∧
        ∀ g i, _ ↔ _ := hspill.spillGroups hD hinv' fun g hg => mem_getGrouplist.mp hg
  refine ⟨t', hsim'.read, fun g i => ⟨?_, fun v => hsim'.value g i v⟩⟩
  have hdone : g ∈ (leftover order m).groupsDone ↔ Visited m [] g := by
    have hsame : (leftover order m).groupsDone = m.groupsDone := by
      unfold leftover
      split
      · rfl
      · obtain ⟨data, printed, heq⟩ : ∃ data printed, finishGroup order m =
          { m with data, printed } := finishGroup_eq m
        rw [spillComments, heq]
    rw [hsame]
    refine ⟨Or.inl, fun hor => hor.elim id ?_⟩
    rintro ⟨sec, hsec, rfl⟩
    obtain ⟨g', hg', rfl⟩ : ∃ g' ∈ m.curgroup, (g', m.itemsDone) = sec := by
      simpa [sections] using hsec
    exact hinv.curgroup g' hg'
  rw [hvalue, huvalue, (hrun g).1 i, hdone, (hrun g).2, Printed, mem_getGrouplist]
  refine or_congr_right ?_
  constructor
  · rintro ⟨-, hnot, hi⟩
    exact ⟨fun sec hsec he => hnot ⟨sec, hsec, he⟩, hi⟩
  · rintro ⟨hnot, hi⟩
    refine ⟨hinv'.mem g (Data.mem_of_hasGroup (hasGroup_of_mem_items hi)), ?_, hi⟩
    rintro ⟨sec, hsec, he⟩
    exact hnot sec hsec he

end sim

end Awb.Inifile.Perl
