import Awb.Inifile.Printed

/-! What holds at every line of `save`: it prints the data it was called with, although it may add
empty groups to them. -/

namespace Awb.Inifile.Perl
variable {order : KeyOrder} {D : Data} {s s' : SaveState}

/-- `save` was called with the data `D`. -/
structure SaveInv (D : Data) (s : SaveState) : Prop where
  items : ∀ g, s.data.items g = D.items g
  hasGroup : ∀ g, D.hasGroup g = true → s.data.hasGroup g = true
  mem : ∀ g ∈ D, g ∈ s.data
  of_mem : ∀ g ∈ s.data, g ∈ D ∨ g ∈ s.groupsDone
  curgroup : ∀ g ∈ s.curgroup, g ∈ s.groupsDone
  groupsDone : ∀ g ∈ s.groupsDone, IsGroup g
  printed : ∀ l ∈ s.printed, '\n' ∉ l
  comments : ∀ c ∈ s.comments, '\n' ∉ c ∧ (lineKind c).skips = true

theorem SaveInv.value (h : SaveInv D s) (g i : Text) : s.data.value g i = D.value g i := by
  rw [Data.value, h.items, Data.value]

theorem SaveInv.initial (D : Data) : SaveInv D { data := D } where
  items := fun _ => rfl
  hasGroup := fun _ => id
  mem := fun _ => id
  of_mem := fun _ => Or.inl
  curgroup := by simp
  groupsDone := by simp
  printed := by simp
  comments := by simp

/-- The lines of new items, which have values in place of the undefined. -/
theorem newItems_eq (items : List Text) {d : Data} (hd : ∀ g, d.items g = D.items g) (g : Text) :
    items.map (newItemLine d g) = items.map fun i => itemLine i ((get D g i).getD []) := by
  refine List.map_congr_left fun i _ => ?_
  have hget : get d g i = get D g i := by rw [get, get, Data.value, hd, Data.value]
  rw [newItemLine, hget]

theorem isValue_getD (hD : WellFormed D) (g i : Text) : IsValue ((get D g i).getD []) := by
  cases hget : get D g i with
  | none => exact ⟨by simp, by simp⟩
  | some value => exact hD.value g i value (value_of_get hget)

theorem newline_not_mem_newItems (hD : WellFormed D) {items : List Text} {g : Text}
    (hitems : ∀ i ∈ items, i ∈ D.items g) {d : Data} (hd : ∀ g, d.items g = D.items g) :
    ∀ l ∈ items.map (newItemLine d g), '\n' ∉ l := by
  rw [newItems_eq items hd, List.forall_mem_map]
  intro i hi
  exact newline_not_mem_itemLine (hD.item g i (hitems i hi)) (isValue_getD hD g i).noNewline

theorem SaveInv.finish (hD : WellFormed D) (h : SaveInv D s) :
    SaveInv D (finishGroup order s) := by
  unfold finishGroup
  split
  · exact h
  · rename_i g hg
    have hdata : ∀ g', (s.data.vivify g).items g' = D.items g' := by simpa using h.items
    refine { h with
      items := hdata
      hasGroup := fun g' hg' => Data.hasGroup_vivify (h.hasGroup g' hg')
      mem := fun g' hg' => Data.mem_vivify.mpr (Or.inr (h.mem g' hg'))
      of_mem := fun g' hg' => ?_
      printed := ?_ }
    · rcases Data.mem_vivify.mp hg' with rfl | hg'
      · exact Or.inr (h.curgroup _ hg)
      · exact h.of_mem g' hg'
    · refine List.forall_mem_append.mpr ⟨h.printed, newline_not_mem_newItems hD ?_ hdata⟩
      intro i hi
      simpa [hdata] using mem_getItemlist.mp (List.mem_of_mem_filter hi)

theorem SaveInv.spill (h : SaveInv D s) : SaveInv D (spillComments s) :=
  { h with
    printed := List.forall_mem_append.mpr ⟨h.printed, fun c hc => (h.comments c hc).1⟩
    comments := by simp [spillComments] }

theorem SaveInv.enter (h : SaveInv D s) {group : Text} (hgroup : IsGroup group) :
    SaveInv D (startGroup s group) := by
  refine { h with
    of_mem := fun g hg => (h.of_mem g hg).imp_right (List.mem_cons_of_mem _)
    curgroup := by simp [startGroup]
    groupsDone := List.forall_mem_cons.mpr ⟨hgroup, h.groupsDone⟩
    printed := List.forall_mem_append.mpr ⟨h.printed, ?_⟩ }
  split
  · exact List.forall_mem_singleton.mpr (newline_not_mem_groupLine (Or.inr hgroup))
  · simp

theorem SaveInv.print (hD : WellFormed D) (h : SaveInv D s) {item : Text} (hitem : IsItem item) :
    SaveInv D (printItem s item) := by
  refine { h with printed := List.forall_mem_append.mpr ⟨h.printed, ?_⟩ }
  intro l hl
  obtain ⟨value, hvalue, rfl⟩ := Option.map_eq_some_iff.mp (Option.mem_toList.mp hl)
  rw [h.value] at hvalue
  exact newline_not_mem_itemLine hitem (hD.value _ _ _ hvalue).noNewline

theorem SaveInv.addComment (h : SaveInv D s) {c : Text} (hc : '\n' ∉ c)
    (hskip : (lineKind c).skips = true) : SaveInv D { s with comments := s.comments ++ [c] } :=
  { h with comments := List.forall_mem_append.mpr ⟨h.comments, by simpa using ⟨hc, hskip⟩⟩ }

theorem SaveInv.blank (h : SaveInv D s) : SaveInv D (saveBlank s) := by
  unfold saveBlank
  split
  · exact h
  · exact h.addComment (by simp) (by decide)

theorem SaveInv.step (hD : WellFormed D) (h : SaveInv D s) {raw : Text} (hraw : '\n' ∉ chop raw)
    (hstep : saveLine order s raw = some s') : SaveInv D s' := by
  unfold saveLine at hstep
  cases hkind : lineKind (chop raw) with
  | group name =>
    simp only [hkind, Option.some.injEq] at hstep
    exact hstep ▸ ((h.finish hD).spill).enter (isGroup_of_lineKind hkind)
  | item name value =>
    simp only [hkind, Option.some.injEq] at hstep
    exact hstep ▸ h.spill.print hD (isItem_of_lineKind hkind)
  | includes name =>
    simp only [hkind, Option.some.injEq] at hstep
    exact hstep ▸ h
  | comment =>
    simp only [hkind, Option.some.injEq] at hstep
    exact hstep ▸ h.addComment hraw (by rw [hkind]; rfl)
  | blank =>
    simp only [hkind, Option.some.injEq] at hstep
    exact hstep ▸ h.blank
  | garbage => simp [hkind] at hstep

theorem SaveInv.atEnd (hD : WellFormed D) (h : SaveInv D s) : SaveInv D (leftover order s) := by
  unfold leftover
  split
  · exact h
  · exact (h.finish hD).spill

theorem newline_not_mem_chop {text raw : Text} (h : raw ∈ rawLines text) : '\n' ∉ chop raw := by
  obtain ⟨body, hbody, rfl | ⟨rfl, -⟩⟩ := body_of_mem_rawLines raw h
  · simpa using hbody
  · exact fun hmem => hbody (List.dropLast_subset _ hmem)

theorem SaveInv.run (hD : WellFormed D) (h : SaveInv D s) {raws : List Text}
    (hraws : ∀ raw ∈ raws, '\n' ∉ chop raw) (hsteps : raws.foldlM (saveLine order) s = some s') :
    SaveInv D s' :=
  List.foldlM_invariant hsteps (SaveInv D) h fun _ raw _ hraw hs hstep =>
    hs.step hD (hraws raw hraw) hstep

/-- A line that becomes garbage without its last character is the only thing `save` dies of. -/
theorem saveLines_isSome {raws : List Text} : (raws.foldlM (saveLine order) s).isSome = true ↔
    ∀ raw ∈ raws, lineKind (chop raw) ≠ .garbage := by
  induction raws generalizing s with
  | nil => simp
  | cons raw raws ih =>
    rw [List.foldlM_cons, List.forall_mem_cons]
    cases hstep : saveLine order s raw with
    | none =>
      have hgarbage : lineKind (chop raw) = .garbage := by
        unfold saveLine at hstep
        cases hkind : lineKind (chop raw) <;> simp_all
      simp [hgarbage]
    | some s' =>
      have hne : lineKind (chop raw) ≠ .garbage := by
        intro hgarbage
        simp [saveLine, hgarbage] at hstep
      exact ih.trans (by simp [hne])

section newGroups
variable {group : Text}

theorem SaveInv.spillGroup (hD : WellFormed D) (h : SaveInv D s) (hgroup : group ∈ s.data) :
    SaveInv D (newGroup order s group) ∧ ∀ g, g ∈ (newGroup order s group).data ↔ g ∈ s.data := by
  unfold newGroup
  split
  · exact ⟨h, fun _ => Iff.rfl⟩
  · rename_i hdone
    have hdone : group ∉ s.groupsDone := by simpa using hdone
    have hdata : ∀ g, (s.data.vivify group).items g = D.items g := by simpa using h.items
    have hmem : ∀ g, g ∈ s.data.vivify group ↔ g ∈ s.data := by
      intro g
      rw [Data.mem_vivify]
      exact ⟨fun hg => hg.elim (fun he => he ▸ hgroup) id, Or.inr⟩
    refine ⟨{ h with
      items := hdata
      hasGroup := fun g hg => Data.hasGroup_vivify (h.hasGroup g hg)
      mem := fun g hg => (hmem g).mpr (h.mem g hg)
      of_mem := fun g hg => h.of_mem g ((hmem g).mp hg)
      printed := ?_ }, hmem⟩
    have hline : '\n' ∉ groupLine group :=
      newline_not_mem_groupLine (hD.group _ ((h.of_mem group hgroup).resolve_right hdone))
    refine List.forall_mem_append.mpr ⟨h.printed, List.forall_mem_cons.mpr ⟨by simp,
      List.forall_mem_cons.mpr ⟨hline, newline_not_mem_newItems hD (fun i hi => ?_) hdata⟩⟩⟩
    simpa [hdata] using mem_getItemlist.mp hi

theorem SaveInv.spillGroups (hD : WellFormed D) (h : SaveInv D s) {groups : List Text}
    (hgroups : ∀ g ∈ groups, g ∈ s.data) : SaveInv D (groups.foldl (newGroup order) s) := by
  induction groups generalizing s with
  | nil => exact h
  | cons group groups ih =>
    obtain ⟨hgroup, hrest⟩ := List.forall_mem_cons.mp hgroups
    obtain ⟨hinv, hmem⟩ := @SaveInv.spillGroup order D s group hD h hgroup
    exact ih hinv fun g hg => (hmem g).mpr (hrest g hg)

theorem groupsDone_newGroup : (newGroup order s group).groupsDone = s.groupsDone := by
  unfold newGroup
  split <;> rfl

theorem printed_newGroup : s.printed <+: (newGroup order s group).printed := by
  unfold newGroup
  split
  · exact List.prefix_rfl
  · exact List.prefix_append _ _

/-- Once the groups are spilled, one that was not done is in the file after a blank line. -/
theorem exists_groupLine {groups : List Text} (hgroup : group ∈ groups)
    (hdone : group ∉ s.groupsDone) : ∃ before after,
      (groups.foldl (newGroup order) s).printed = before ++ [] :: groupLine group :: after := by
  obtain ⟨pre, post, rfl⟩ := List.append_of_mem hgroup
  rw [List.foldl_append, List.foldl_cons]
  have hdone' : group ∉ (pre.foldl (newGroup order) s).groupsDone :=
    List.foldlRecOn (motive := fun s : SaveState => group ∉ s.groupsDone) _ _ hdone
      fun _ hs _ _ => groupsDone_newGroup.symm ▸ hs
  generalize pre.foldl (newGroup order) s = t at hdone'
  have hprinted : ∃ after, (newGroup order t group).printed =
      t.printed ++ [] :: groupLine group :: after := by
    rw [newGroup, if_neg (by simpa using hdone')]
    exact ⟨_, rfl⟩
  obtain ⟨after, hprinted⟩ := hprinted
  obtain ⟨rest, hrest⟩ : (newGroup order t group).printed <+:
      (post.foldl (newGroup order) (newGroup order t group)).printed :=
    List.foldlRecOn (motive := fun s : SaveState => (newGroup order t group).printed <+: s.printed)
      _ _ List.prefix_rfl fun _ hs _ _ => hs.trans printed_newGroup
  exact ⟨t.printed, after ++ rest, by rw [← hrest, hprinted]; simp⟩

end newGroups

end Awb.Inifile.Perl
