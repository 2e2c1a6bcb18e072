import Awb.Builder.ModuleActions

/-! Which modules `CreateBuildTreeForModel` visits. The loop over the files of a module returns
from the whole function at the first `.pack` file, so what comes behind that file and all
submodules are left out. -/

namespace Awb

namespace Session

/-- What the pass has to do for a module instance at its place. -/
structure Visited (σ : Session) (entries : List (Nat × Action)) (p : Place × ModuleInstance) :
    Prop where
  header : ∃ text, (p.2.label.id, .writeFile (σ.headerFileName p.2.label) text) ∈ entries
  copies : ∀ f ∈ p.2.label.files,
    ∀ c ∈ σ.copiesOf p.2.label.module p.1.moduleShortPath f,
      (p.2.label.id, .copy c.1 c.2) ∈ entries
  collected : ∃ actions, σ.collectModule p.2.label.module = some actions ∧
    ∀ x ∈ actions, (p.2.label.id, x) ∈ entries ∧
      ∀ b : Builder, (b.performAll (entries.map fun e => e.2)).Has x
  dynamicParams : ∀ q ∈ p.2.label.dynamicParams, ∀ b : Builder,
    (b.performAll (entries.map fun e => e.2)).dynamicParams.count q = b.dynamicParams.count q + 1

/-- A module without `.pack` file, or one for which nothing is to be done after it. -/
def PackComesLast (σ : Session) (p : Place × ModuleInstance) : Prop :=
  (∃ f ∈ p.2.label.files, fileKind f = .config) →
    (∀ f ∈ p.2.label.files, ∀ c ∈ σ.copiesOf p.2.label.module p.1.moduleShortPath f,
      ∃ f' ∈ beforePack p.2.label.files,
        c ∈ σ.copiesOf p.2.label.module p.1.moduleShortPath f') ∧
    σ.NothingToCollect p.2.label.module ∧ p.2.children = []

/-- The entries that a visit leaves behind. -/
structure Touched (σ : Session) (entries : List (Nat × Action)) (p : Place × ModuleInstance) :
    Prop where
  header : ∃ text, (p.2.label.id, .writeFile (σ.headerFileName p.2.label) text) ∈ entries
  copies : ∀ f ∈ p.2.label.files,
    ∀ c ∈ σ.copiesOf p.2.label.module p.1.moduleShortPath f,
      (p.2.label.id, .copy c.1 c.2) ∈ entries
  collected : ∃ actions, σ.collectModule p.2.label.module = some actions ∧
    ∀ x ∈ actions, (p.2.label.id, x) ∈ entries

variable {σ : Session} {place : Place} {inheritedParams : List ModParamInstance}
  {a : Instance} {subs : List (Option ModuleInstance)} {t : ModuleInstance}
  {entries entries' : List (Nat × Action)} {p : Place × ModuleInstance}

theorem Touched.mono (h : σ.Touched entries p) (hsub : entries ⊆ entries') :
    σ.Touched entries' p := by
  obtain ⟨⟨text, htext⟩, hcopies, actions, hactions, hcollected⟩ := h
  exact ⟨⟨text, hsub htext⟩, fun f hf c hc => hsub (hcopies f hf c hc), actions, hactions,
    fun x hx => hsub (hcollected x hx)⟩

theorem createSubModules_eq
    (h : σ.createSubModules place a inheritedParams subs = some entries) :
    gather (fun s => σ.createBuildTreeForModule (place.sub a s.label) inheritedParams s)
      (subs.filterMap id) = some entries := by
  induction subs generalizing entries with
  | nil => simpa [createSubModules, gather] using h
  | cons o subs ih =>
    cases o with
    | none => simp [createSubModules] at h
    | some s =>
      simp only [createSubModules, Option.bind_eq_bind, Option.bind_eq_some_iff, Option.pure_def,
        Option.some.injEq] at h
      obtain ⟨here, hhere, rest, hrest, rfl⟩ := h
      exact Gather.cons_eq_some.mpr ⟨here, rest, hhere, ih hrest, rfl⟩

/-- A module instance either returns early or goes on to its submodules. -/
theorem createBuildTreeForModule_cases
    (h : σ.createBuildTreeForModule place inheritedParams t = some entries) :
    ∃ header files, σ.createModuleHeader t.label inheritedParams = some header ∧
      gather (σ.copyListed t.label.module place.moduleShortPath) (beforePack t.label.files) =
        some files ∧
      (((∃ f ∈ t.label.files, fileKind f = .config) ∧
          entries = t.label.tag (header ++ files)) ∨
        ((¬ ∃ f ∈ t.label.files, fileKind f = .config) ∧
          ∃ collected below, σ.collectModule t.label.module = some collected ∧
            gather (fun s => σ.createBuildTreeForModule (place.sub t.label s.label)
              (inheritedParams ++ t.label.subtreeParams) s) t.children = some below ∧
            entries = t.label.tag (header ++ files ++ collected) ++ below)) := by
  obtain ⟨a, subs⟩ := t
  simp only [createBuildTreeForModule, Option.bind_eq_bind, Option.bind_eq_some_iff,
    Option.pure_def, Prod.exists] at h
  obtain ⟨header, hheader, files, returned, hfiles, h⟩ := h
  obtain ⟨hgather, hreturned⟩ := copyModuleFiles_eq hfiles
  refine ⟨header, files, hheader, hgather, ?_⟩
  split at h
  · rename_i hret
    exact .inl ⟨hreturned.mp hret, (Option.some.inj h).symm⟩
  · rename_i hret
    simp only [Option.bind_eq_some_iff, Option.some.injEq] at h
    obtain ⟨collected, hcollected, below, hbelow, rfl⟩ := h
    exact .inr ⟨fun hpack => hret (hreturned.mpr hpack), collected, below, hcollected,
      createSubModules_eq hbelow, rfl⟩

/-- The copies of the files that the loop comes to are made. -/
theorem copy_mem_of_beforePack {m : Module} {moduleShortPath f : Text} {files : List Text}
    {actions : List Action}
    (h : gather (σ.copyListed m moduleShortPath) (beforePack files) = some actions)
    (hf : f ∈ beforePack files) {c : Text × Text} (hc : c ∈ σ.copiesOf m moduleShortPath f) :
    .copy c.1 c.2 ∈ actions := by
  obtain ⟨here, hhere, hsub⟩ := Gather.yield_of_mem h hf
  obtain ⟨ty, hkind, hcopy⟩ := kind_of_copyListed hhere
  exact hsub (copy_mem_of_copiesOf hkind hcopy hc)

theorem beforePack_eq_self {files : List Text} (h : ¬ ∃ f ∈ files, fileKind f = .config) :
    beforePack files = files := by
  rw [beforePack, List.takeWhile_eq_self_iff]
  intro f hf
  have : fileKind f ≠ .config := fun hkind => h ⟨f, hf, hkind⟩
  simpa using this

theorem dynamicParam_mem_header {header : List Action}
    (h : σ.createModuleHeader a inheritedParams = some header) {q : ModParamInstance}
    (hq : q ∈ a.dynamicParams) : .dynamicParam q ∈ header := by
  obtain ⟨text, rfl⟩ := createModuleHeader_eq h
  exact List.mem_cons_of_mem _ (List.mem_map.mpr ⟨q, hq, rfl⟩)

section complete

/-- If `.pack` files come last everywhere, the pass visits the whole tree. -/
theorem touched_of_packComesLast
    (h : σ.createBuildTreeForModule place inheritedParams t = some entries)
    (hlast : ∀ p ∈ t.down Place.sub place, σ.PackComesLast p) :
    ∀ p ∈ t.down Place.sub place, σ.Touched entries p ∧
      ∀ q ∈ p.2.label.dynamicParams, (p.2.label.id, .dynamicParam q) ∈ entries := by
  induction t using RoseTree.induct generalizing place inheritedParams entries with
  | h a subs ih =>
    obtain ⟨hself, hsubs⟩ := RoseTree.forall_mem_down.mp hlast
    obtain ⟨header, files, hheader, hfiles, hreturn⟩ := createBuildTreeForModule_cases h
    obtain ⟨text, htext⟩ := createModuleHeader_eq hheader
    refine RoseTree.forall_mem_down.mpr ?_
    rcases hreturn with ⟨hpack, rfl⟩ | ⟨hpack, collected, below, hcollected, hbelow, rfl⟩
    · -- nothing is left to be done at the return
      obtain ⟨hcopies, hnothing, hchildren⟩ := hself hpack
      refine ⟨⟨⟨⟨text, ?_⟩, fun f hf c hc => ?_, [], collectModule_eq_nil.mpr hnothing, ?_⟩, ?_⟩, ?_⟩
      · simp [htext]
      · obtain ⟨f', hf', hc'⟩ := hcopies f hf c hc
        simpa using Or.inr (copy_mem_of_beforePack hfiles hf' hc')
      · simp
      · intro q hq
        simpa using Or.inl (dynamicParam_mem_header hheader hq)
      · intro s hs
        rw [hchildren] at hs
        simp at hs
    · refine ⟨⟨⟨⟨text, ?_⟩, fun f hf c hc => ?_, collected, hcollected, ?_⟩, ?_⟩, ?_⟩
      · simp [htext]
      · rw [← beforePack_eq_self hpack] at hf
        have hmem := copy_mem_of_beforePack hfiles hf hc
        simp [hmem]
      · intro x hx
        simp [hx]
      · intro q hq
        have hmem := dynamicParam_mem_header hheader hq
        simp [hmem]
      · intro s hs p hp
        obtain ⟨here, hhere, hsub⟩ := Gather.yield_of_mem hbelow hs
        obtain ⟨htouched, hparams⟩ := ih s (RoseTree.mem_children.mp hs) hhere (hsubs s hs) p hp
        have hsub' := List.Subset.trans hsub (List.subset_append_right
          (a.tag (header ++ files ++ collected)) below)
        exact ⟨htouched.mono hsub', fun q hq => hsub' (hparams q hq)⟩

end complete

section necessary

/-- Only the modules of a tree leave entries in its pass. -/
theorem id_mem_of_entry (h : σ.createBuildTreeForModule place inheritedParams t = some entries)
    {i : Nat} {x : Action} (hx : (i, x) ∈ entries) : i ∈ t.nodes.map fun s => s.label.id := by
  induction t using RoseTree.induct generalizing place inheritedParams entries with
  | h a subs ih =>
    rw [RoseTree.nodes_eq, List.map_cons, List.map_flatMap]
    obtain ⟨header, files, -, -, ⟨-, rfl⟩ | ⟨-, collected, below, -, hbelow, rfl⟩⟩ :=
      createBuildTreeForModule_cases h
    · exact (Instance.mem_tag.mp hx).1 ▸ List.mem_cons_self ..
    · rcases List.mem_append.mp hx with hx | hx
      · exact (Instance.mem_tag.mp hx).1 ▸ List.mem_cons_self ..
      · obtain ⟨s, hs, here, hhere, hmem⟩ := Gather.source_of_mem hbelow hx
        have hi := ih s (RoseTree.mem_children.mp hs) hhere hmem
        exact List.mem_cons_of_mem _ (List.mem_flatMap.mpr ⟨s, hs, hi⟩)

theorem id_mem_nodes {s : ModuleInstance} : s.label.id ∈ s.nodes.map fun s => s.label.id := by
  rw [RoseTree.nodes_eq]
  exact List.mem_cons_self ..

/-- A visited module has all entries it needs among those with its number. -/
theorem Touched.of_tagged (h : σ.Touched entries p)
    (hsub : ∀ x, (p.2.label.id, x) ∈ entries → (p.2.label.id, x) ∈ entries') :
    σ.Touched entries' p := by
  obtain ⟨⟨text, htext⟩, hcopies, actions, hactions, hcollected⟩ := h
  exact ⟨⟨text, hsub _ htext⟩, fun f hf c hc => hsub _ (hcopies f hf c hc), actions, hactions,
    fun x hx => hsub _ (hcollected x hx)⟩

/-- What the early return at a visited module leaves out is nothing. -/
theorem packComesLast_of_returned {header files : List Action}
    (hheader : σ.createModuleHeader t.label inheritedParams = some header)
    (hfiles : gather (σ.copyListed t.label.module place.moduleShortPath)
      (beforePack t.label.files) = some files)
    (hself : σ.Touched (t.label.tag (header ++ files)) (place, t)) :
    (∀ f ∈ t.label.files, ∀ c ∈ σ.copiesOf t.label.module place.moduleShortPath f,
      ∃ f' ∈ beforePack t.label.files,
        c ∈ σ.copiesOf t.label.module place.moduleShortPath f') ∧
    σ.NothingToCollect t.label.module := by
  constructor
  · intro f hf c hc
    have hmem := (Instance.mem_tag.mp (hself.copies f hf c hc)).2
    obtain ⟨text, rfl⟩ := createModuleHeader_eq hheader
    have hfile : .copy c.1 c.2 ∈ files := by simpa using hmem
    obtain ⟨f', hf', here, hhere, hx⟩ := Gather.source_of_mem hfiles hfile
    obtain ⟨ty, hkind, hcopy⟩ := kind_of_copyListed hhere
    exact ⟨f', hf', mem_copiesOf_of_copy hkind hcopy (isSourceFile_of_mem_copiesOf hc) hx⟩
  · obtain ⟨actions, hactions, hcollected⟩ := hself.collected
    rw [← collectModule_eq_nil, hactions, Option.some.injEq, List.eq_nil_iff_forall_not_mem]
    intro x hx
    have hyes := collects_of_mem_collectModule hactions hx
    have hno : x.collects = false := by
      rcases List.mem_append.mp (Instance.mem_tag.mp (hcollected x hx)).2 with hmem | hmem
      · exact collects_of_mem_header hheader hmem
      · obtain ⟨f, -, here, hhere, hx⟩ := Gather.source_of_mem hfiles hmem
        obtain ⟨ty, -, hcopy⟩ := kind_of_copyListed hhere
        exact collects_of_mem_copyModuleFile hcopy hx
    simp [hyes] at hno

/-- If the pass visits the whole tree, `.pack` files come last everywhere. -/
theorem packComesLast_of_touched (hids : (t.nodes.map fun s => s.label.id).Nodup)
    (h : σ.createBuildTreeForModule place inheritedParams t = some entries)
    (htouched : ∀ p ∈ t.down Place.sub place, σ.Touched entries p) :
    ∀ p ∈ t.down Place.sub place, σ.PackComesLast p := by
  induction t using RoseTree.induct generalizing place inheritedParams entries with
  | h a subs ih =>
    obtain ⟨hroot, hsubids, hdis⟩ := RoseTree.keys_of_nodup hids
    obtain ⟨hself, hsubs⟩ := RoseTree.forall_mem_down.mp htouched
    obtain ⟨header, files, hheader, hfiles, hreturn⟩ := createBuildTreeForModule_cases h
    refine RoseTree.forall_mem_down.mpr ?_
    rcases hreturn with ⟨hpack, rfl⟩ | ⟨hpack, collected, below, hcollected, hbelow, rfl⟩
    · have hchildren : (RoseTree.node a subs).children = [] := by
        refine List.eq_nil_iff_forall_not_mem.mpr fun s hs => ?_
        obtain ⟨text, htext⟩ := (hsubs s hs _ (RoseTree.self_mem_down _ _)).header
        have hid := (Instance.mem_tag.mp htext).1
        exact hroot s hs (hid ▸ id_mem_nodes)
      obtain ⟨hcopies, hnothing⟩ := packComesLast_of_returned hheader hfiles hself
      refine ⟨fun _ => ⟨hcopies, hnothing, hchildren⟩, fun s hs => ?_⟩
      rw [hchildren] at hs
      simp at hs
    · refine ⟨fun hex => absurd hex hpack, fun s hs => ?_⟩
      obtain ⟨here, hhere, -⟩ := Gather.yield_of_mem hbelow hs
      refine ih s (RoseTree.mem_children.mp hs) (hsubids s hs) hhere fun p hp => ?_
      refine (hsubs s hs p hp).of_tagged fun x hx => ?_
      -- an entry with a number of this subtree was left by the pass over it
      have hp' : p.2.label.id ∈ s.nodes.map fun s => s.label.id := by
        rw [← RoseTree.map_snd_down (f := Place.sub) (place.sub a s.label), List.map_map]
        exact List.mem_map.mpr ⟨p, hp, rfl⟩
      rcases List.mem_append.mp hx with hx | hx
      · exact absurd ((Instance.mem_tag.mp hx).1 ▸ hp') (hroot s hs)
      · obtain ⟨s', hs', here', hhere', hmem⟩ := Gather.source_of_mem hbelow hx
        obtain rfl := hdis s hs s' hs' _ hp' (id_mem_of_entry hhere' hmem)
        obtain rfl := Option.some.inj (hhere.symm.trans hhere')
        exact hmem

end necessary

section dynamicParams

/-- The dynamic parameter that an entry appends. -/
def appendedBy (e : Nat × Action) : Option ModParamInstance := Builder.appendedParam e.2

theorem appendedBy_header {header : List Action}
    (h : σ.createModuleHeader a inheritedParams = some header) :
    (a.tag header).filterMap appendedBy = a.dynamicParams := by
  obtain ⟨text, rfl⟩ := createModuleHeader_eq h
  simp [Instance.tag, List.filterMap_cons, appendedBy, Builder.appendedParam, Function.comp_def,
    List.filterMap_map]

theorem appendedBy_of_forall {actions : List Action}
    (h : ∀ x ∈ actions, Builder.appendedParam x = none) :
    (a.tag actions).filterMap appendedBy = [] := by
  rw [List.filterMap_eq_nil_iff]
  rintro ⟨i, x⟩ hx
  exact h x (Instance.mem_tag.mp hx).2

theorem appendedParam_of_collects {x : Action} (h : x.collects = true) :
    Builder.appendedParam x = none := by
  cases x <;> simp_all [Action.collects, Builder.appendedParam]

theorem appendedParam_copyListed {m : Module} {moduleShortPath f : Text} {actions : List Action}
    (h : σ.copyListed m moduleShortPath f = some actions) :
    ∀ x ∈ actions, Builder.appendedParam x = none := by
  obtain ⟨ty, -, hcopy⟩ := kind_of_copyListed h
  obtain ⟨sourceFileName, -, rfl⟩ := copyModuleFile_eq hcopy
  intro x hx
  split at hx
  · rcases List.mem_append.mp hx with hx | hx
    · obtain ⟨c, -, rfl⟩ := List.mem_map.mp hx
      rfl
    · exact (fileActions_eq x hx).2
  · simp at hx

/-- The pass appends dynamic parameters of the tree in its order, none twice. -/
theorem appended_sublist (h : σ.createBuildTreeForModule place inheritedParams t = some entries) :
    (entries.filterMap appendedBy).Sublist (t.nodes.flatMap fun s => s.label.dynamicParams) := by
  induction t using RoseTree.induct generalizing place inheritedParams entries with
  | h a subs ih =>
    rw [RoseTree.nodes_eq, List.flatMap_cons, List.flatMap_assoc]
    obtain ⟨header, files, hheader, hfiles, hreturn⟩ := createBuildTreeForModule_cases h
    have hnone : ∀ x ∈ files, Builder.appendedParam x = none := by
      intro x hx
      obtain ⟨f, -, here, hhere, hmem⟩ := Gather.source_of_mem hfiles hx
      exact appendedParam_copyListed hhere x hmem
    have htag : ∀ rest : List Action, (∀ x ∈ rest, Builder.appendedParam x = none) →
        (a.tag (header ++ rest)).filterMap appendedBy = a.dynamicParams := by
      intro rest hrest
      rw [Instance.tag, List.map_append, List.filterMap_append]
      have hempty := appendedBy_of_forall (a := a) hrest
      rw [Instance.tag] at hempty
      rw [hempty, List.append_nil]
      exact appendedBy_header hheader
    rcases hreturn with ⟨-, rfl⟩ | ⟨-, collected, below, hcollected, hbelow, rfl⟩
    · exact (htag files hnone).symm ▸ List.sublist_append_left _ _
    · rw [List.filterMap_append, List.append_assoc]
      have hself := htag (files ++ collected) fun x hx =>
        (List.mem_append.mp hx).elim (hnone x) fun hx =>
          appendedParam_of_collects (collects_of_mem_collectModule hcollected hx)
      refine List.Sublist.append (hself ▸ List.Sublist.refl _) ?_
      exact Gather.filterMap_sublist hbelow fun s hs here hhere =>
        ih s (RoseTree.mem_children.mp hs) hhere

theorem nodup_dynamicParams
    (hparams : (t.nodes.flatMap fun s => s.label.params.map fun q => q.id).Nodup) :
    (t.nodes.flatMap fun s => s.label.dynamicParams).Nodup := by
  rw [← List.map_flatMap] at hparams
  refine (List.Nodup.of_map _ hparams).sublist ?_
  induction t.nodes with
  | nil => simp
  | cons s l ih =>
    rw [List.flatMap_cons, List.flatMap_cons]
    exact (List.filter_sublist).append ih

theorem dynamicParams_eq (b : Builder) :
    (b.performAll (entries.map fun e => e.2)).dynamicParams =
      b.dynamicParams ++ entries.filterMap appendedBy := by
  rw [Builder.dynamicParams_performAll, List.filterMap_map]
  rfl

end dynamicParams

/-- A successful pass visits every module of the model exactly if no module has, behind a `.pack`
file, another existing file, libraries, include options or submodules. -/
theorem visits_iff {model : Model} {root : ModuleInstance} (hroot : model.rootModule = some root)
    (h : σ.createBuildTreeForModel model = some entries) :
    (∀ p ∈ placements root, σ.Visited entries p) ↔
      ∀ p ∈ placements root, σ.PackComesLast p := by
  have hrun : σ.createBuildTreeForModule Place.root [] root = some entries := by
    simp only [createBuildTreeForModel, hroot, Option.bind_eq_bind, Option.bind_eq_some_iff] at h
    obtain ⟨_, hsome, _, -, hrun⟩ := h
    exact Option.some.inj hsome ▸ hrun
  have hids := model.ids_nodup root hroot
  have hnodup := (nodup_dynamicParams (model.params_nodup root hroot)).sublist
    (appended_sublist hrun)
  constructor
  · intro hvisited
    refine packComesLast_of_touched hids hrun fun p hp => ?_
    obtain ⟨actions, hactions, hcollected⟩ := (hvisited p hp).collected
    exact ⟨(hvisited p hp).header, (hvisited p hp).copies, actions, hactions,
      fun x hx => (hcollected x hx).1⟩
  · intro hlast p hp
    obtain ⟨htouched, hparams⟩ := touched_of_packComesLast hrun hlast p hp
    obtain ⟨actions, hactions, hcollected⟩ := htouched.collected
    refine ⟨htouched.header, htouched.copies, ⟨actions, hactions, fun x hx => ?_⟩, ?_⟩
    · have hmem := hcollected x hx
      exact ⟨hmem, Builder.performAll_has (List.mem_map.mpr ⟨_, hmem, rfl⟩)⟩
    · intro q hq b
      have hmem : q ∈ entries.filterMap appendedBy :=
        List.mem_filterMap.mpr ⟨_, hparams q hq, rfl⟩
      rw [dynamicParams_eq, List.count_append, List.count_eq_one_of_mem hnodup hmem]

section examples

/-- All files of one directory are there. -/
def exampleSession : Session where
  host :=
    { fileExists := fun _ => true
      isDirectory := fun _ => false
      openDir := fun _ => false
      openIn := fun _ => true
      expandTilde := id
      glob := fun _ _ => [] }
  disk := { makeDir := fun _ => true, openOut := fun _ => true, isDirectory := fun _ => true }
  workspace :=
    { sourceTree := { searchPath := ["/s".toList], absolute := by decide }
      buildEnvFlag := fun _ => false }
  buildDir := "/b".toList
  persistConfigureOpt := false

/-- A core with two private files and a dynamic parameter, and a cache below it. -/
def exampleTree (privateFiles : List Text) : ModuleInstance :=
  .node
    { id := 0
      module := { name := [], provides := "cpu".toList, requiresList := ["l1".toList]
                  privateFileList := privateFiles }
      params := [⟨0, ⟨"W".toList, [], .local, .startup⟩, "4".toList⟩] }
    [some (.node { id := 1, module := { name := [], provides := "l1".toList } } [])]

def exampleModel (privateFiles : List Text) : Model where
  name := []
  desc := []
  fileName := []
  rootModule := some (exampleTree privateFiles)
  ids_nodup := by
    intro t ht
    obtain rfl := Option.some.inj ht
    simp [exampleTree, RoseTree.nodes, RoseTree.down, RoseTree.downSubs, RoseTree.label]
  params_nodup := by
    intro t ht
    obtain rfl := Option.some.inj ht
    simp [exampleTree, RoseTree.nodes, RoseTree.down, RoseTree.downSubs, RoseTree.label]

theorem visits_exampleModel :
    ∃ entries, exampleSession.createBuildTreeForModel (exampleModel ["a.cpp".toList]) =
        some entries ∧
      ∀ p ∈ placements (exampleTree ["a.cpp".toList]), exampleSession.Visited entries p := by
  obtain ⟨entries, h⟩ : ∃ entries,
      exampleSession.createBuildTreeForModel (exampleModel ["a.cpp".toList]) = some entries :=
    Option.isSome_iff_exists.mp (by decide)
  refine ⟨entries, h, (visits_iff rfl h).mpr fun p hp hpack => ?_⟩
  have hnone : ∀ p ∈ placements (exampleTree ["a.cpp".toList]),
      ∀ f ∈ p.2.label.files, fileKind f ≠ .config := by decide
  obtain ⟨f, hf, hkind⟩ := hpack
  exact absurd hkind (hnone p hp f hf)

/-- The cache below a core with a `.pack` file has no header. -/
theorem not_visits : ¬ ∀ (σ : Session) (model : Model) (root : ModuleInstance)
    (entries : List (Nat × Action)), model.rootModule = some root →
      σ.createBuildTreeForModel model = some entries →
      ∀ p ∈ placements root, σ.Visited entries p := by
  intro hall
  let files := ["a.pack".toList, "a.cpp".toList]
  obtain ⟨entries, h⟩ : ∃ entries,
      exampleSession.createBuildTreeForModel (exampleModel files) = some entries :=
    Option.isSome_iff_exists.mp (by decide)
  have hroot : ∀ e ∈ entries, e.1 = 0 := by
    have hdec : ∀ es ∈ exampleSession.createBuildTreeForModel (exampleModel files),
        ∀ e ∈ es, e.1 = 0 := by decide
    exact hdec entries h
  have hvisited := hall exampleSession (exampleModel files) (exampleTree files) entries rfl h
  have hcache : ∃ p ∈ placements (exampleTree files), p.2.label.id = 1 := by decide
  obtain ⟨p, hp, hid⟩ := hcache
  obtain ⟨text, htext⟩ := (hvisited p hp).header
  have hzero := hroot _ htext
  omega

end examples

end Session

end Awb
