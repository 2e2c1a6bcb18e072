import Awb.Builder.Makefiles
import Awb.Builder.Visits
import Awb.Lib.Agree

/-! Configuring a model again with the same builder. `Makefile::clear` leaves the lists of the
sub-makefiles as they are, so the second run adds to those of the first. -/

namespace Awb

namespace Session

/-- The same sources, workspace and build directory, whatever the build tree is like. -/
def withDisk (σ : Session) (disk : Disk) : Session := { σ with disk := disk }

section agree
variable (σ : Session) (disk : Disk)

theorem agree_copyFileToBuildTree (source dest : Text) :
    Agree (σ.copyFileToBuildTree source dest) ((σ.withDisk disk).copyFileToBuildTree source dest) :=
  Agree.bind (Agree.of_subsingleton _ _) fun _ => Agree.refl _

theorem agree_createModuleHeader (a : Instance) (params : List ModParamInstance) :
    Agree (σ.createModuleHeader a params) ((σ.withDisk disk).createModuleHeader a params) :=
  Agree.bind (Agree.refl _) fun _ => Agree.bind (Agree.of_subsingleton _ _) fun _ =>
    Agree.bind (Agree.of_subsingleton _ _) fun _ => Agree.refl _

theorem agree_copyModuleFile (m : Module) (dir fileName : Text) (ty : ExportType) :
    Agree (σ.copyModuleFile m dir fileName ty) ((σ.withDisk disk).copyModuleFile m dir fileName ty) := by
  refine Agree.bind (Agree.refl _) fun _ => Agree.ite (Agree.refl _) ?_
  refine Agree.bind (Agree.refl _) fun _ => Agree.bind (Agree.refl _) fun _ => ?_
  refine Agree.bind (agree_copyFileToBuildTree σ disk _ _) fun _ => Agree.ite (Agree.refl _) ?_
  refine Agree.ite (Agree.bind (Agree.refl _) fun _ => ?_) (Agree.refl _)
  exact Agree.bind (agree_copyFileToBuildTree σ disk _ _) fun _ => Agree.refl _

theorem agree_copyModuleFiles (m : Module) (dir : Text) (files : List Text) :
    Agree (σ.copyModuleFiles m dir files) ((σ.withDisk disk).copyModuleFiles m dir files) := by
  induction files with
  | nil => exact Agree.refl _
  | cons f files ih =>
    unfold copyModuleFiles
    split
    · exact Agree.refl _
    · exact Agree.refl _
    · exact Agree.bind (agree_copyModuleFile σ disk _ _ _ _) fun _ => Agree.bind ih fun _ => Agree.refl _

theorem agree_createBuildTreeForModule (t : ModuleInstance) (place : Place)
    (params : List ModParamInstance) :
    Agree (σ.createBuildTreeForModule place params t)
      ((σ.withDisk disk).createBuildTreeForModule place params t) := by
  induction t using RoseTree.induct generalizing place params with
  | h a subs ih =>
    have hsubs : ∀ (params : List ModParamInstance) (l : List (Option ModuleInstance)),
        (∀ s, some s ∈ l → some s ∈ subs) → Agree (σ.createSubModules place a params l)
          ((σ.withDisk disk).createSubModules place a params l) := by
      intro params l hl
      induction l with
      | nil => exact Agree.refl _
      | cons o l ihl =>
        cases o with
        | none => exact Agree.refl _
        | some s =>
          unfold createSubModules
          refine Agree.bind (ih s (hl s (List.mem_cons_self ..)) _ _) fun _ => ?_
          refine Agree.bind (ihl fun s' hs' => hl s' (List.mem_cons_of_mem _ hs')) fun _ => ?_
          exact Agree.refl _
    unfold createBuildTreeForModule
    refine Agree.bind (agree_createModuleHeader σ disk _ _) fun _ => ?_
    refine Agree.bind (agree_copyModuleFiles σ disk _ _ _) fun _ => Agree.ite (Agree.refl _) ?_
    refine Agree.bind (Agree.refl _) fun _ => Agree.bind (hsubs _ subs fun _ h => h) fun _ => ?_
    exact Agree.refl _

theorem agree_createBuildTreeForModel (model : Model) :
    Agree (σ.createBuildTreeForModel model) ((σ.withDisk disk).createBuildTreeForModel model) :=
  Agree.bind (Agree.refl _) fun _ => Agree.bind (Agree.refl _) fun _ =>
    agree_createBuildTreeForModule σ disk _ _ _

theorem agree_copyBaseFile (name : Text) :
    Agree (σ.copyBaseFile name) ((σ.withDisk disk).copyBaseFile name) := by
  unfold copyBaseFile
  dsimp only
  split
  · exact Agree.refl _
  · refine Agree.bind (Agree.refl _) fun _ => Agree.ite (Agree.refl _) ?_
    refine Agree.bind (Agree.refl _) fun _ => Agree.bind (Agree.refl _) fun _ => ?_
    refine Agree.bind (agree_copyFileToBuildTree σ disk _ _) fun _ => ?_
    exact Agree.ite (Agree.refl _) (Agree.refl _)

theorem agree_writeGenerated (dir fileName : Text) (ty : ExportType) (source text : Text) :
    Agree (σ.writeGenerated dir fileName ty source text)
      ((σ.withDisk disk).writeGenerated dir fileName ty source text) :=
  Agree.bind (Agree.refl _) fun _ => Agree.bind (Agree.of_subsingleton _ _) fun _ =>
    Agree.bind (Agree.of_subsingleton _ _) fun _ => Agree.refl _

theorem agree_substitutePlaceholders (template fileName : Text) :
    Agree (σ.substitutePlaceholders template fileName)
      ((σ.withDisk disk).substitutePlaceholders template fileName) :=
  Agree.bind (Agree.refl _) fun _ => Agree.bind (Agree.of_subsingleton _ _) fun _ => Agree.refl _

theorem agree_createSubMakefile (rootModule m : Module) (dir makefile : Text) :
    Agree (σ.createSubMakefile rootModule m dir makefile)
      ((σ.withDisk disk).createSubMakefile rootModule m dir makefile) := by
  refine Agree.bind (Agree.refl _) fun _ => ?_
  refine Agree.bind (agree_copyFileToBuildTree σ disk _ _) fun _ => ?_
  refine Agree.bind (Agree.refl _) fun _ => Agree.bind (Agree.refl _) fun _ => ?_
  refine Agree.bind (Agree.refl _) fun _ => Agree.bind (Agree.refl _) fun _ => ?_
  exact Agree.bind (agree_substitutePlaceholders σ disk _ _) fun _ => Agree.refl _

theorem agree_createOwnMakefile (rootModule : Module) (place : Place) (m : Module) :
    Agree (σ.createOwnMakefile rootModule place m)
      ((σ.withDisk disk).createOwnMakefile rootModule place m) := by
  unfold createOwnMakefile
  split
  · exact Agree.refl _
  · exact Agree.ite (Agree.refl _) (agree_createSubMakefile σ disk _ _ _ _)

theorem agree_createSubMakefiles (rootModule : Module) (t : ModuleInstance) (place : Place) :
    Agree (σ.createSubMakefiles rootModule place t)
      ((σ.withDisk disk).createSubMakefiles rootModule place t) := by
  induction t using RoseTree.induct generalizing place with
  | h a subs ih =>
    have hsubs : ∀ l : List (Option ModuleInstance), (∀ s, some s ∈ l → some s ∈ subs) →
        Agree (σ.createSubMakefilesBelow rootModule place a l)
          ((σ.withDisk disk).createSubMakefilesBelow rootModule place a l) := by
      intro l hl
      induction l with
      | nil => exact Agree.refl _
      | cons o l ihl =>
        cases o with
        | none => exact Agree.refl _
        | some s =>
          unfold createSubMakefilesBelow
          refine Agree.bind (ih s (hl s (List.mem_cons_self ..)) _) fun _ => ?_
          refine Agree.bind (ihl fun s' hs' => hl s' (List.mem_cons_of_mem _ hs')) fun _ => ?_
          exact Agree.refl _
    unfold createSubMakefiles
    refine Agree.bind (agree_createOwnMakefile σ disk _ _ _) fun _ => ?_
    exact Agree.bind (hsubs subs fun _ h => h) fun _ => Agree.refl _

theorem agree_createMakefiles (model : Model) (root : ModuleInstance) (m : Makefile) :
    Agree (σ.createMakefiles model root m) ((σ.withDisk disk).createMakefiles model root m) := by
  refine Agree.bind (Agree.refl _) fun _ => ?_
  refine Agree.bind (Agree.of_subsingleton _ _) fun _ => ?_
  refine Agree.bind (agree_createSubMakefiles σ disk _ _ _) fun _ => ?_
  refine Agree.bind (Agree.refl _) fun _ => Agree.bind (Agree.refl _) fun _ => ?_
  refine Agree.bind (Agree.refl _) fun _ => Agree.bind (Agree.of_subsingleton _ _) fun _ => ?_
  refine Agree.bind (Agree.refl _) fun _ => Agree.bind (Agree.refl _) fun _ => ?_
  exact Agree.bind (agree_substitutePlaceholders σ disk _ _) fun _ => Agree.refl _

/-- What a successful configuration yields does not depend on the state of the build tree. -/
theorem agree_createBuildTree (model : Model) (b : Builder) :
    Agree (σ.createBuildTree model b) ((σ.withDisk disk).createBuildTree model b) := by
  refine Agree.bind (Agree.gather_congr fun _ _ => agree_copyBaseFile σ disk _) fun _ => ?_
  refine Agree.bind (agree_createBuildTreeForModel σ disk _) fun _ => ?_
  refine Agree.bind (agree_writeGenerated σ disk _ _ _ _ _) fun _ => ?_
  refine Agree.bind (Agree.refl _) fun _ => ?_
  refine Agree.bind (agree_writeGenerated σ disk _ _ _ _ _) fun _ => ?_
  refine Agree.bind (agree_createMakefiles σ disk _ _ _) fun _ => ?_
  exact Agree.bind (Agree.of_subsingleton _ _) fun _ => Agree.refl _

end agree

section subDirs
variable {σ : Session} {rootModule m : Module} {place : Place} {t : ModuleInstance}
  {steps : List MakefileStep}

/-- The entry of `subDirs` that a step adds. -/
def subDirOf : MakefileStep → Option Text
  | .subDir v => some v
  | _ => none

theorem subDirs_run (mk : Makefile) (steps : List MakefileStep) :
    (mk.run steps).1.subDirs = mk.subDirs ++ steps.filterMap subDirOf := by
  induction steps generalizing mk with
  | nil => simp [Makefile.run]
  | cons s steps ih =>
    rw [Makefile.run, ih]
    cases s <;> simp [Makefile.step, Makefile.addReplacement, subDirOf, List.filterMap_cons]

theorem slash_mem_fileJoin {dir : Text} (hdir : dir ≠ []) (name : Text) :
    '/' ∈ fileJoin dir name := by
  unfold fileJoin
  split
  · rename_i h
    cases name with
    | nil => simp [isAbsolutePath, hdir] at h
    | cons c name =>
      have hc : c = '/' := by simpa [isAbsolutePath, hdir] using h
      exact hc ▸ List.mem_cons_self ..
  · split
    · rename_i h
      exact List.mem_append_left _ (List.mem_of_getLast? h)
    · simp

theorem createSubMakefile_ne_nil {dir makefile : Text}
    (h : σ.createSubMakefile rootModule m dir makefile = some steps) :
    steps.filterMap subDirOf ≠ [] := by
  simp only [createSubMakefile, Option.bind_eq_bind, Option.bind_eq_some_iff, Option.pure_def,
    Option.some.injEq] at h
  obtain ⟨_, -, _, -, _, -, _, -, _, -, _, -, _, -, rfl⟩ := h
  simp [List.filterMap_cons, subDirOf]

theorem createOwnMakefile_eq_nil (hnil : m.makefileList = []) :
    σ.createOwnMakefile rootModule place m = some [] := by
  rw [createOwnMakefile, hnil]

theorem createOwnMakefile_root : σ.createOwnMakefile rootModule Place.root m = some [] := by
  unfold createOwnMakefile
  split
  · rfl
  · exact if_pos rfl

theorem createOwnMakefile_ne_nil (hplace : '/' ∈ place.modulePath) (hne : m.makefileList ≠ [])
    (h : σ.createOwnMakefile rootModule place m = some steps) : steps.filterMap subDirOf ≠ [] := by
  unfold createOwnMakefile at h
  split at h
  · rename_i hnil
    exact absurd hnil hne
  · rw [if_neg fun he => by simp [he] at hplace] at h
    exact createSubMakefile_ne_nil h

theorem createSubMakefiles_cases (h : σ.createSubMakefiles rootModule place t = some steps) :
    ∃ here below, σ.createOwnMakefile rootModule place t.label.module = some here ∧
      gather (fun s => σ.createSubMakefiles rootModule (place.sub t.label s.label) s) t.children =
        some below ∧ steps = here ++ below := by
  obtain ⟨a, subs⟩ := t
  simp only [createSubMakefiles, Option.bind_eq_bind, Option.bind_eq_some_iff, Option.pure_def,
    Option.some.injEq] at h
  obtain ⟨here, hhere, below, hbelow, rfl⟩ := h
  refine ⟨here, below, hhere, ?_, rfl⟩
  clear hhere
  show gather _ (subs.filterMap id) = _
  induction subs generalizing below with
  | nil => simpa [createSubMakefilesBelow, gather] using hbelow
  | cons o subs ih =>
    cases o with
    | none => simp [createSubMakefilesBelow] at hbelow
    | some s =>
      simp only [createSubMakefilesBelow, Option.bind_eq_bind, Option.bind_eq_some_iff,
        Option.pure_def, Option.some.injEq] at hbelow
      obtain ⟨first, hfirst, rest, hrest, rfl⟩ := hbelow
      exact Gather.cons_eq_some.mpr ⟨first, rest, hfirst, ih rest hrest, rfl⟩

/-- Below the root exactly the modules with a `%makefile` add directories. -/
theorem subDirs_of_subtree (hplace : '/' ∈ place.modulePath)
    (h : σ.createSubMakefiles rootModule place t = some steps) :
    ((∀ s ∈ t.nodes, s.label.module.makefileList = []) → steps = []) ∧
    (steps.filterMap subDirOf = [] → ∀ s ∈ t.nodes, s.label.module.makefileList = []) := by
  induction t using RoseTree.induct generalizing place steps with
  | h a subs ih =>
    obtain ⟨here, below, hhere, hbelow, rfl⟩ := createSubMakefiles_cases h
    have hsub : ∀ s : ModuleInstance, '/' ∈ (place.sub a s.label).modulePath :=
      fun s => slash_mem_fileJoin (List.ne_nil_of_mem hplace) _
    rw [RoseTree.nodes_eq]
    constructor
    · intro hnone
      obtain ⟨hself, hsubs⟩ := List.forall_mem_cons.mp hnone
      rw [createOwnMakefile_eq_nil hself, Option.some.injEq] at hhere
      refine List.append_eq_nil_iff.mpr ⟨hhere.symm, List.eq_nil_iff_forall_not_mem.mpr ?_⟩
      intro x hx
      obtain ⟨s, hs, steps, hsteps, hmem⟩ := Gather.source_of_mem hbelow hx
      have hnil := (ih s (RoseTree.mem_children.mp hs) (hsub s) hsteps).1 fun s' hs' =>
        hsubs s' (List.mem_flatMap.mpr ⟨s, hs, hs'⟩)
      rw [hnil] at hmem
      simp at hmem
    · intro hempty
      rw [List.filterMap_append, List.append_eq_nil_iff] at hempty
      refine List.forall_mem_cons.mpr ⟨?_, fun s' hs' => ?_⟩
      · by_contra hne
        exact createOwnMakefile_ne_nil hplace hne hhere hempty.1
      · obtain ⟨s, hs, hmem⟩ := List.mem_flatMap.mp hs'
        obtain ⟨steps, hsteps, hsubset⟩ := Gather.yield_of_mem hbelow hs
        have hnone := List.filterMap_eq_nil_iff.mp hempty.2
        refine (ih s (RoseTree.mem_children.mp hs) (hsub s) hsteps).2 ?_ s' hmem
        exact List.filterMap_eq_nil_iff.mpr fun x hx => hnone x (hsubset hx)

/-- No module below the root has a makefile of its own. -/
def NoSubMakefiles (root : ModuleInstance) : Prop :=
  ∀ s ∈ root.children, ∀ t ∈ s.nodes, t.label.module.makefileList = []

theorem subDirs_of_root {root : ModuleInstance}
    (h : σ.createSubMakefiles rootModule Place.root root = some steps) :
    (NoSubMakefiles root → steps = []) ∧
    (steps.filterMap subDirOf = [] → NoSubMakefiles root) := by
  obtain ⟨here, below, hhere, hbelow, rfl⟩ := createSubMakefiles_cases h
  rw [createOwnMakefile_root, Option.some.injEq] at hhere
  subst hhere
  have hsub : ∀ s : ModuleInstance, '/' ∈ (Place.root.sub root.label s.label).modulePath :=
    fun s => slash_mem_fileJoin (by decide) _
  constructor
  · intro hnone
    refine List.eq_nil_iff_forall_not_mem.mpr fun x hx => ?_
    obtain ⟨s, hs, steps, hsteps, hmem⟩ := Gather.source_of_mem hbelow hx
    have hnil := (subDirs_of_subtree (hsub s) hsteps).1 (hnone s hs)
    rw [hnil] at hmem
    simp at hmem
  · intro hempty s hs
    obtain ⟨steps, hsteps, hsubset⟩ := Gather.yield_of_mem hbelow hs
    refine (subDirs_of_subtree (hsub s) hsteps).2 ?_
    rw [List.filterMap_eq_nil_iff] at hempty ⊢
    exact fun x hx => hempty x (hsubset hx)

end subDirs

section runs
variable {σ : Session} {model : Model} {root : ModuleInstance} {b b' : Builder}
  {written : List Output}

theorem subs_performAll (b : Builder) (actions : List Action) :
    (b.performAll actions).makefile.subDirs = b.makefile.subDirs ∧
      (b.performAll actions).makefile.subTargets = b.makefile.subTargets := by
  induction actions generalizing b with
  | nil => exact ⟨rfl, rfl⟩
  | cons x actions ih =>
    obtain ⟨hdirs, htargets⟩ := ih (b.perform x)
    rw [Builder.performAll_cons, hdirs, htargets]
    cases x <;> exact ⟨rfl, rfl⟩

theorem subs_addReplacements (m : Makefile) (values : List (Text × Text)) :
    (m.addReplacements values).subDirs = m.subDirs ∧
      (m.addReplacements values).subTargets = m.subTargets := by
  induction values generalizing m with
  | nil => exact ⟨rfl, rfl⟩
  | cons v values ih => exact ih (m.addReplacement v.1 v.2)

theorem substitutePlaceholders_eq {template fileName : Text} {x : MakefileStep}
    (h : σ.substitutePlaceholders template fileName = some x) :
    x = .substitute template fileName := by
  simp only [substitutePlaceholders, Option.bind_eq_bind, Option.bind_eq_some_iff, Option.pure_def,
    Option.some.injEq] at h
  obtain ⟨_, -, _, -, rfl⟩ := h
  rfl

theorem subs_createMakefiles {m m' : Makefile}
    (h : σ.createMakefiles model root m = some (m', written)) :
    ∃ steps, σ.createSubMakefiles root.label.module Place.root root = some steps ∧
      m'.subDirs = m.subDirs ++ steps.filterMap subDirOf ∧
      (steps = [] → m'.subTargets = m.subTargets) := by
  simp only [createMakefiles, Option.bind_eq_bind, Option.bind_eq_some_iff, Option.pure_def,
    Option.some.injEq, Prod.mk.injEq] at h
  obtain ⟨_, -, _, -, steps, hsteps, _, -, _, -, _, -, _, -, _, -, _, -, _, htop, rfl, -⟩ := h
  obtain rfl := substitutePlaceholders_eq htop
  refine ⟨steps, hsteps, ?_, ?_⟩
  · show (Makefile.addReplacements _ _).subDirs = _
    rw [(subs_addReplacements _ _).1, subDirs_run, (subs_addReplacements _ _).1]
  · rintro rfl
    show (Makefile.addReplacements _ _).subTargets = _
    rw [(subs_addReplacements _ _).2]
    exact (subs_addReplacements _ _).2

/-- A run keeps the two lists that are not cleared and adds what the sub-makefiles add. -/
theorem subs_createBuildTree (hroot : model.rootModule = some root)
    (h : σ.createBuildTree model b = some (b', written)) :
    ∃ steps, σ.createSubMakefiles root.label.module Place.root root = some steps ∧
      b'.makefile.subDirs = b.makefile.subDirs ++ steps.filterMap subDirOf ∧
      (steps = [] → b'.makefile.subTargets = b.makefile.subTargets) := by
  simp only [createBuildTree, Option.bind_eq_bind, Option.bind_eq_some_iff, Option.pure_def,
    Option.some.injEq, Prod.exists, Prod.mk.injEq] at h
  obtain ⟨_, -, _, -, _, -, root', hroot', _, -, m, _, hmakefiles, _, -, rfl, -⟩ := h
  obtain rfl := Option.some.inj (hroot.symm.trans hroot')
  obtain ⟨steps, hsteps, hdirs, htargets⟩ := subs_createMakefiles hmakefiles
  refine ⟨steps, hsteps, ?_, fun hnil => ?_⟩
  · rw [hdirs, (subs_performAll _ _).1, (subs_performAll _ _).1]
    rfl
  · rw [htargets hnil, (subs_performAll _ _).2, (subs_performAll _ _).2]
    rfl

/-- A run depends on the state before only by what `clear` leaves. -/
theorem createBuildTree_congr (hclear : b.makefile.clear = b'.makefile.clear) :
    σ.createBuildTree model b = σ.createBuildTree model b' := by
  unfold createBuildTree
  rw [hclear]

/-- A second run leaves the makefile information and writes the makefiles of the first exactly if
no module below the root has a makefile of its own. -/
theorem reconfigure_iff {disk : Disk} {b₁ b₂ : Builder} {written₁ written₂ : List Output}
    (hroot : model.rootModule = some root)
    (h₁ : σ.createBuildTree model b = some (b₁, written₁))
    (h₂ : (σ.withDisk disk).createBuildTree model b₁ = some (b₂, written₂)) :
    (b₂.makefile = b₁.makefile ∧ written₂ = written₁) ↔ NoSubMakefiles root := by
  obtain ⟨steps, hsteps, hdirs, htargets⟩ := subs_createBuildTree hroot h₁
  obtain ⟨hempty, hnone⟩ := subDirs_of_root hsteps
  constructor
  · rintro ⟨hsame, -⟩
    obtain ⟨steps', hsteps', hdirs', -⟩ := subs_createBuildTree hroot h₂
    obtain rfl := agree_createSubMakefiles σ disk _ _ _ steps hsteps steps' hsteps'
    refine hnone ?_
    rw [hsame] at hdirs'
    simpa using hdirs'
  · intro hno
    obtain rfl := hempty hno
    have hclear : b.makefile.clear = b₁.makefile.clear := by
      simp only [Makefile.clear, hdirs, htargets rfl, List.filterMap_nil, List.append_nil]
    rw [createBuildTree_congr hclear] at h₁
    have hsame := agree_createBuildTree σ disk model b₁ _ h₁ _ h₂
    obtain ⟨rfl, rfl⟩ := Prod.mk.injEq .. ▸ hsame
    exact ⟨rfl, rfl⟩

end runs

section examples

/-- A core, and below it a cache with the given `%makefile`. -/
def makefileTree (makefiles : List Text) : ModuleInstance :=
  .node { id := 0, module := { name := [], provides := "cpu".toList, requiresList := ["l1".toList] } }
    [some (.node
      { id := 1, module := { name := [], provides := "l1".toList, makefileList := makefiles } } [])]

def makefileModel (makefiles : List Text) : Model where
  name := []
  desc := []
  fileName := []
  rootModule := some (makefileTree makefiles)
  ids_nodup := by
    intro t ht
    obtain rfl := Option.some.inj ht
    simp [makefileTree, RoseTree.nodes, RoseTree.down, RoseTree.downSubs, RoseTree.label]
  params_nodup := by
    intro t ht
    obtain rfl := Option.some.inj ht
    simp [makefileTree, RoseTree.nodes, RoseTree.down, RoseTree.downSubs, RoseTree.label]

theorem reconfigure_makefileModel : ∃ first second : Builder × List Output,
    exampleSession.createBuildTree (makefileModel []) {} = some first ∧
      exampleSession.createBuildTree (makefileModel []) first.1 = some second ∧
      second.1.makefile = first.1.makefile ∧ second.2 = first.2 := by
  have hruns : ∃ first ∈ exampleSession.createBuildTree (makefileModel []) {},
      ∃ second ∈ exampleSession.createBuildTree (makefileModel []) first.1, True := by decide
  obtain ⟨first, hfirst, second, hsecond, -⟩ := hruns
  refine ⟨first, second, hfirst, hsecond, ?_⟩
  have hnone : NoSubMakefiles (makefileTree []) := by
    unfold NoSubMakefiles
    decide
  exact (@reconfigure_iff exampleSession (makefileModel []) (makefileTree []) {} exampleSession.disk
    _ _ _ _ rfl hfirst hsecond).mpr hnone

/-- The second run lists the directory of the cache again. -/
theorem makefile_not_kept : ¬ ∀ (σ : Session) (disk : Disk) (model : Model)
    (b b₁ b₂ : Builder) (written₁ written₂ : List Output),
      σ.createBuildTree model b = some (b₁, written₁) →
      (σ.withDisk disk).createBuildTree model b₁ = some (b₂, written₂) →
      b₂.makefile = b₁.makefile := by
  intro h
  let model := makefileModel ["Makefile.l1".toList]
  have hruns : ∃ first ∈ exampleSession.createBuildTree model {},
      ∃ second ∈ exampleSession.createBuildTree model first.1,
        second.1.makefile.subDirs ≠ first.1.makefile.subDirs := by decide
  obtain ⟨first, hfirst, second, hsecond, hne⟩ := hruns
  exact hne (congrArg Makefile.subDirs
    (h exampleSession exampleSession.disk model {} first.1 second.1 first.2 second.2 hfirst hsecond))

end examples

end Session

end Awb
