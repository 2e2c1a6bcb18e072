import Awb.Coverage.Sets
import Awb.Lib.Folds

/-! What the global lists and the table of parents hold after any sets have been computed: the
lists that exist are complete, and the table has references only, all of those that the existing
lists were computed from. -/

namespace Awb.Coverage

namespace Repository
variable (r : Repository) (o : Options)

/-- The experiments files of the given types. -/
def exps : List Text := r.experimentsIn o r.packages

/-- The models that `GetApmAll` finds. -/
def models : List Text := r.packages.flatMap r.findApm

/-- The modules that `GetAwbAll` finds. -/
def modules : List Text := r.packages.flatMap r.findAwb

/-- The models that coverage is computed for, as the option or the chosen experiments name them. -/
def named : List Text :=
  if o.model ≠ [] then [o.model]
  else (r.experimentsIn o (r.chosenPackages o)).flatMap r.getApmsFromExp

/-- A model names a submodel. -/
def HasSubmodel (m d : Text) : Prop := d ∈ r.submodels m

/-- A model is named or below one that is. -/
def Used (m : Text) : Prop :=
  m ∈ r.named o ∨ ∃ top ∈ r.named o, Relation.TransGen r.HasSubmodel top m

/-- Names are as the program expects them: without commas, one for each file, with the extensions
of models and modules where models and modules are named, and no others. -/
structure WellNamed : Prop where
  resolve : ∀ f g, r.resolveRelative f = some g → f <:+ g ∧ ',' ∉ g
  experiment : ∀ packages, ∀ e ∈ r.experimentsIn o packages,
    (".exp".toList <:+ e ∨ ".models".toList <:+ e) ∧ ',' ∉ e
  named : ∀ e, ∀ m ∈ r.getApmsFromExp e, isApm m
  model : o.model ≠ [] → isApm o.model ∧ ',' ∉ o.model
  models : ∀ m ∈ r.models, isApm m ∧ ',' ∉ m
  modules : ∀ w ∈ r.modules, isAwb w ∧ ',' ∉ w
  source : ∀ w, ∀ c ∈ r.getSourcesFromAwb w, isApm c = false ∧ isAwb c = false

/-- The references that are entered in the table: who refers to whom. -/
inductive Entered : Text → Text → Prop
  | experiment {e m} : e ∈ r.exps o → m ∈ r.getApmsFromExp e → Entered e m
  | submodel {m d} : m ∈ r.named o → Relation.TransGen r.HasSubmodel m d → Entered m d
  | module {m w} : r.Used o m ∨ m ∈ r.models → w ∈ r.getAwbsFromApm m → Entered m w
  | source {w c} : w ∈ r.modules → c ∈ r.getSourcesFromAwb w → Entered w c

/-- A module that is given as changed, or one of whose sources is. -/
def ChangedModule (w : Text) : Prop :=
  w ∈ o.initChangedAwb ∨ w ∈ r.modules ∧ ∃ c ∈ r.getSourcesFromAwb w, c ∈ o.initChangedSource

/-- A model names a changed module. -/
def NamesChanged (m : Text) : Prop := ∃ w ∈ r.getAwbsFromApm m, r.ChangedModule o w

/-- What `GetApmChanged` takes for a changed model. -/
def ChangedModel (m : Text) : Prop :=
  m ∈ o.initChangedApm ∨ (r.Used o m ∨ m ∈ r.models) ∧ r.NamesChanged o m ∨
    m ∈ r.named o ∧ ∃ d, Relation.TransGen r.HasSubmodel m d ∧ r.NamesChanged o d

end Repository

/-! ### Names and extensions -/

theorem ext_unique {a b f : Text} (ha : a <:+ f) (hb : b <:+ f) (hab : ¬ a <:+ b)
    (hba : ¬ b <:+ a) : False :=
  (List.suffix_or_suffix_of_suffix ha hb).elim hab hba

theorem isApm_iff {f : Text} : isApm f = true ↔ ".apm".toList <:+ f := List.isSuffixOf_iff_suffix

theorem isAwb_iff {f : Text} : isAwb f = true ↔ ".awb".toList <:+ f := List.isSuffixOf_iff_suffix

theorem not_isAwb_of_isApm {f : Text} (h : isApm f) : isAwb f = false :=
  Bool.eq_false_iff.mpr fun hawb =>
    ext_unique (isApm_iff.mp h) (isAwb_iff.mp hawb) (by decide) (by decide)

/-- A name with an extension can be listed if it has no comma. -/
theorem listable_of_suffix {ext f : Text} (hext : 2 ≤ ext.length) (h : ext <:+ f) (hf : ',' ∉ f) :
    Listable f := by
  have hlength := hext.trans h.length_le
  refine ⟨hf, ?_⟩
  have hnil : f ≠ [] := by
    rintro rfl
    simp at hlength
  have hzero : f ≠ ['0'] := by
    rintro rfl
    simp at hlength
  rw [isTrue, decide_eq_true hnil, decide_eq_true hzero]
  rfl

namespace Repository
variable {r : Repository} {o : Options}

/-- What a model names has the extension that was looked for. -/
theorem WellNamed.filesFromApm (h : r.WellNamed o) {ext m f : Text}
    (hf : f ∈ r.filesFromApm ext m) : ext <:+ f ∧ ',' ∉ f := by
  obtain ⟨line, -, hline⟩ := List.mem_filterMap.mp hf
  obtain ⟨file, -, hfile⟩ := Option.bind_eq_some_iff.mp hline
  obtain ⟨hsuffix, hcomma⟩ := h.resolve _ _ (Option.filter_eq_some_iff.mp hfile).1
  exact ⟨(List.suffix_append file ext).trans hsuffix, hcomma⟩

theorem WellNamed.submodel (h : r.WellNamed o) {m d : Text} (hd : r.HasSubmodel m d) :
    isApm d ∧ ',' ∉ d :=
  (h.filesFromApm hd).imp_left isApm_iff.mpr

theorem WellNamed.below (h : r.WellNamed o) {m d : Text}
    (hd : Relation.TransGen r.HasSubmodel m d) : isApm d ∧ ',' ∉ d := by
  obtain ⟨_, -, hlast⟩ := Relation.TransGen.tail'_iff.mp hd
  exact h.submodel hlast

theorem WellNamed.awb (h : r.WellNamed o) {m w : Text} (hw : w ∈ r.getAwbsFromApm m) :
    isAwb w := by
  rw [getAwbsFromApm, Descend.mem_foldl_addNew, or_iff_right List.not_mem_nil] at hw
  exact isAwb_iff.mpr (h.filesFromApm hw).1

theorem WellNamed.expModel (h : r.WellNamed o) {e m : Text} (hm : m ∈ r.getApmsFromExp e) :
    isApm m ∧ ',' ∉ m := by
  refine ⟨h.named e m hm, ?_⟩
  obtain ⟨line, -, hline⟩ := List.mem_filterMap.mp hm
  obtain ⟨word, -, hword⟩ := Option.bind_eq_some_iff.mp hline
  exact (h.resolve _ _ (Option.filter_eq_some_iff.mp hword).1).2

theorem WellNamed.namedModel (h : r.WellNamed o) {m : Text} (hm : m ∈ r.named o) :
    isApm m ∧ ',' ∉ m := by
  unfold Repository.named at hm
  by_cases hmodel : o.model ≠ []
  · rw [if_pos hmodel] at hm
    exact List.mem_singleton.mp hm ▸ h.model hmodel
  · rw [if_neg hmodel] at hm
    obtain ⟨e, -, he⟩ := List.mem_flatMap.mp hm
    exact h.expModel he

theorem WellNamed.usedModel (h : r.WellNamed o) {m : Text} (hm : r.Used o m) :
    isApm m ∧ ',' ∉ m := by
  obtain hm | ⟨top, -, hm⟩ := hm
  · exact h.namedModel hm
  · exact h.below hm

theorem WellNamed.listableExp (h : r.WellNamed o) {e : Text} (he : e ∈ r.exps o) : Listable e := by
  obtain ⟨hext | hext, hcomma⟩ := h.experiment _ e he
  · exact listable_of_suffix (by decide) hext hcomma
  · exact listable_of_suffix (by decide) hext hcomma

theorem WellNamed.exp_not_isApm (h : r.WellNamed o) {e : Text} (he : e ∈ r.exps o) :
    isApm e = false := by
  refine Bool.eq_false_iff.mpr fun hapm => ?_
  obtain ⟨hext | hext, -⟩ := h.experiment _ e he
  · exact ext_unique (isApm_iff.mp hapm) hext (by decide) (by decide)
  · exact ext_unique (isApm_iff.mp hapm) hext (by decide) (by decide)

theorem listable_of_isApm {m : Text} (h : isApm m ∧ ',' ∉ m) : Listable m :=
  listable_of_suffix (by decide) (isApm_iff.mp h.1) h.2

theorem listable_of_isAwb {w : Text} (h : isAwb w ∧ ',' ∉ w) : Listable w :=
  listable_of_suffix (by decide) (isAwb_iff.mp h.1) h.2

/-! ### What refers to a file of each kind -/

theorem entered_module_iff (h : r.WellNamed o) {p w : Text} (hw : isAwb w) :
    r.Entered o p w ↔ (r.Used o p ∨ p ∈ r.models) ∧ w ∈ r.getAwbsFromApm p := by
  constructor
  · intro hentered
    cases hentered with
    | experiment _ hm =>
      have hnot := not_isAwb_of_isApm (h.expModel hm).1
      exact absurd hw (Bool.eq_false_iff.mp hnot)
    | submodel _ hd =>
      have hnot := not_isAwb_of_isApm (h.below hd).1
      exact absurd hw (Bool.eq_false_iff.mp hnot)
    | module hp hmem => exact ⟨hp, hmem⟩
    | source _ hc => exact absurd hw (Bool.eq_false_iff.mp (h.source _ _ hc).2)
  · exact fun hp => .module hp.1 hp.2

theorem entered_source_iff (h : r.WellNamed o) {p c : Text} (hapm : isApm c = false)
    (hawb : isAwb c = false) : r.Entered o p c ↔ p ∈ r.modules ∧ c ∈ r.getSourcesFromAwb p := by
  constructor
  · intro hentered
    cases hentered with
    | experiment _ hm => exact absurd (h.expModel hm).1 (Bool.eq_false_iff.mp hapm)
    | submodel _ hd => exact absurd (h.below hd).1 (Bool.eq_false_iff.mp hapm)
    | module _ hmem => exact absurd (h.awb hmem) (Bool.eq_false_iff.mp hawb)
    | source hp hc => exact ⟨hp, hc⟩
  · exact fun hp => .source hp.1 hp.2

theorem entered_model_iff (h : r.WellNamed o) {p m : Text} (hm : isApm m) :
    r.Entered o p m ↔ p ∈ r.exps o ∧ m ∈ r.getApmsFromExp p ∨
      p ∈ r.named o ∧ Relation.TransGen r.HasSubmodel p m := by
  have hawb := not_isAwb_of_isApm hm
  constructor
  · intro hentered
    cases hentered with
    | experiment he hmem => exact .inl ⟨he, hmem⟩
    | submodel hp hd => exact .inr ⟨hp, hd⟩
    | module _ hmem => exact absurd (h.awb hmem) (Bool.eq_false_iff.mp hawb)
    | source _ hc => exact absurd hm (Bool.eq_false_iff.mp (h.source _ _ hc).1)
  · rintro (⟨he, hmem⟩ | ⟨hp, hd⟩)
    · exact .experiment he hmem
    · exact .submodel hp hd

/-! ### The invariant -/

/-- A list that has been computed is complete. -/
def Complete (list : Option (List Text)) (p : Text → Prop) : Prop :=
  ∀ files, list = some files → ∀ f, f ∈ files ↔ p f

/-- The references of some files are in the table. -/
def Recorded (table : Child2Parent) (files : Text → Prop) (children : Text → List Text) : Prop :=
  ∀ f, files f → ∀ c ∈ children f, f ∈ getParents table c

def Grows (table table' : Child2Parent) : Prop :=
  ∀ p c, p ∈ getParents table c → p ∈ getParents table' c

theorem Grows.of_eq {table table' : Child2Parent} (h : table' = table) : Grows table table' :=
  fun _ _ hp => h ▸ hp

theorem Grows.trans {table table' table'' : Child2Parent} (h : Grows table table')
    (h' : Grows table' table'') : Grows table table'' :=
  fun p c hp => h' p c (h p c hp)

theorem Recorded.mono {table table' : Child2Parent} {files : Text → Prop}
    {children : Text → List Text} (h : Recorded table files children)
    (hgrows : Grows table table') : Recorded table' files children :=
  fun f hf c hc => hgrows _ _ (h f hf c hc)

variable (r o) in
/-- The global lists and the table after any sets have been computed. -/
structure Consistent (s : State) : Prop where
  used : ∃ files, s.apmFiles = some files ∧ ∀ m, m ∈ files ↔ r.Used o m
  clean : Clean s.child2Parent
  entered : ∀ p c, p ∈ getParents s.child2Parent c → r.Entered o p c
  below : ∀ m ∈ r.named o, ∀ d, Relation.TransGen r.HasSubmodel m d →
    m ∈ getParents s.child2Parent d
  awbFiles : s.awbFiles ≠ none → Recorded s.child2Parent (r.Used o) r.getAwbsFromApm
  allExp : s.allExp ≠ none → Recorded s.child2Parent (· ∈ r.exps o) r.getApmsFromExp
  allSourceFiles : s.allSourceFiles ≠ none →
    Recorded s.child2Parent (· ∈ r.modules) r.getSourcesFromAwb
  allApm : Complete s.allApm (· ∈ r.models)
  allAwb : Complete s.allAwb (· ∈ r.modules)
  missedApm : Complete s.missedApm fun m => m ∈ r.models ∧ ¬ r.Used o m
  changedAwb : Complete s.changedAwb (r.ChangedModule o)
  changedApm : Complete s.changedApm (r.ChangedModel o)
  changedExp : Complete s.changedExp fun e =>
    e ∈ r.exps o ∧ ∃ m ∈ r.getApmsFromExp e, r.ChangedModel o m

/-- Scanning files of the workspace keeps the invariant and records their references. -/
theorem Consistent.scan {s : State} (h : r.Consistent o s) (children : Text → List Text)
    (files : List Text) (hlistable : ∀ f ∈ files, Listable f)
    (hentered : ∀ f ∈ files, ∀ c ∈ children f, r.Entered o f c) :
    let table := (scan children files ([], s.child2Parent)).2
    r.Consistent o { s with child2Parent := table } ∧ Grows s.child2Parent table ∧
      Recorded table (· ∈ files) children := by
  intro table
  obtain ⟨hclean, -, htable⟩ := scan_spec children (s := ([], s.child2Parent)) h.clean hlistable
  have hgrows : Grows s.child2Parent table := fun p c hp => (htable p c).mpr (.inl hp)
  refine ⟨{ h with
    clean := hclean
    entered := fun p c hp => ?_
    below := fun m hm d hd => hgrows _ _ (h.below m hm d hd)
    awbFiles := fun hfiles => (h.awbFiles hfiles).mono hgrows
    allExp := fun hfiles => (h.allExp hfiles).mono hgrows
    allSourceFiles := fun hfiles => (h.allSourceFiles hfiles).mono hgrows }, hgrows,
    fun f hf c hc => (htable f c).mpr (.inr ⟨hf, hc⟩)⟩
  obtain hp | ⟨hp, hc⟩ := (htable p c).mp hp
  · exact h.entered p c hp
  · exact hentered p hp c hc

theorem Complete.some {files : List Text} {p : Text → Prop} (h : ∀ f, f ∈ files ↔ p f) :
    Complete (some files) p := by
  intro l hl
  obtain rfl := Option.some.inj hl
  exact h

theorem mem_setAdd_nil {files : List Text} {f : Text} : f ∈ files.foldl setAdd [] ↔ f ∈ files := by
  rw [Descend.mem_foldl_addNew, or_iff_right List.not_mem_nil]

theorem mem_sortFiles {files : List Text} {f : Text} : f ∈ sortFiles files ↔ f ∈ files :=
  (List.perm_insertionSort _ files).mem_iff

section
variable {s : State}

theorem getApmS_spec (h : r.Consistent o s) :
    (r.getApmS s).2 = s ∧ ∀ m, m ∈ (r.getApmS s).1 ↔ r.Used o m := by
  obtain ⟨files, hfiles, hmem⟩ := h.used
  rw [getApmS, hfiles]
  exact ⟨rfl, hmem⟩

theorem getExpAll_spec (hnames : r.WellNamed o) (h : r.Consistent o s) :
    r.Consistent o (r.getExpAll o s).2 ∧ Grows s.child2Parent (r.getExpAll o s).2.child2Parent ∧
      Recorded (r.getExpAll o s).2.child2Parent (· ∈ r.exps o) r.getApmsFromExp := by
  cases hfiles : s.allExp with
  | some files =>
    rw [getExpAll, hfiles]
    exact ⟨h, fun _ _ hp => hp, h.allExp (by simp [hfiles])⟩
  | none =>
    obtain ⟨hcons, hgrows, hrecorded⟩ := h.scan r.getApmsFromExp (r.exps o)
      (fun f hf => hnames.listableExp hf) (fun f hf c hc => .experiment hf hc)
    rw [getExpAll, hfiles]
    exact ⟨{ hcons with allExp := fun _ => hrecorded }, hgrows, hrecorded⟩

theorem getApmAll_spec (h : r.Consistent o s) :
    r.Consistent o (r.getApmAll s).2 ∧
      (r.getApmAll s).2.child2Parent = s.child2Parent ∧
      ∀ m, m ∈ (r.getApmAll s).1 ↔ m ∈ r.models := by
  cases hfiles : s.allApm with
  | some files =>
    rw [getApmAll, hfiles]
    exact ⟨h, rfl, h.allApm files hfiles⟩
  | none =>
    rw [getApmAll, hfiles]
    exact ⟨{ h with allApm := .some fun m => mem_setAdd_nil }, rfl, fun m => mem_setAdd_nil⟩

theorem getApmMissed_spec (h : r.Consistent o s) :
    r.Consistent o (r.getApmMissed s).2 ∧
      (r.getApmMissed s).2.child2Parent = s.child2Parent ∧
      ∀ m, m ∈ (r.getApmMissed s).1 ↔ m ∈ r.models ∧ ¬ r.Used o m := by
  cases hfiles : s.missedApm with
  | some files =>
    rw [getApmMissed, hfiles]
    exact ⟨h, rfl, h.missedApm files hfiles⟩
  | none =>
    obtain ⟨hsame, hused⟩ := getApmS_spec h
    obtain ⟨hall, htable, hmodels⟩ := getApmAll_spec h
    have hmem : ∀ m, m ∈ setInBnotA (r.getApmS s).1 (r.getApmAll s).1 ↔
        m ∈ r.models ∧ ¬ r.Used o m := by
      intro m
      simp [setInBnotA, hused, hmodels]
    simp only [getApmMissed, hfiles, hsame]
    exact ⟨{ hall with missedApm := .some hmem }, htable, hmem⟩

theorem getAwbS_spec (hnames : r.WellNamed o) (h : r.Consistent o s) :
    r.Consistent o (r.getAwbS s).2 ∧ Grows s.child2Parent (r.getAwbS s).2.child2Parent ∧
      Recorded (r.getAwbS s).2.child2Parent (r.Used o) r.getAwbsFromApm := by
  cases hfiles : s.awbFiles with
  | some files =>
    rw [getAwbS, hfiles]
    exact ⟨h, fun _ _ hp => hp, h.awbFiles (by simp [hfiles])⟩
  | none =>
    obtain ⟨hsame, hused⟩ := getApmS_spec h
    obtain ⟨hcons, hgrows, hrecorded⟩ := h.scan r.getAwbsFromApm (r.getApmS s).1
      (fun f hf => listable_of_isApm (hnames.usedModel ((hused f).mp hf)))
      (fun f hf c hc => .module (.inl ((hused f).mp hf)) hc)
    have hall : Recorded (scan r.getAwbsFromApm (r.getApmS s).1 ([], s.child2Parent)).2
        (r.Used o) r.getAwbsFromApm :=
      fun f hf => hrecorded f ((hused f).mpr hf)
    simp only [getAwbS, hfiles, hsame]
    exact ⟨{ hcons with awbFiles := fun _ => hall }, hgrows, hall⟩

theorem getAwbAll_spec (h : r.Consistent o s) :
    r.Consistent o (r.getAwbAll s).2 ∧
      (r.getAwbAll s).2.child2Parent = s.child2Parent ∧
      ∀ w, w ∈ (r.getAwbAll s).1 ↔ w ∈ r.modules := by
  cases hfiles : s.allAwb with
  | some files =>
    rw [getAwbAll, hfiles]
    exact ⟨h, rfl, h.allAwb files hfiles⟩
  | none =>
    rw [getAwbAll, hfiles]
    exact ⟨{ h with allAwb := .some fun m => mem_setAdd_nil }, rfl, fun m => mem_setAdd_nil⟩

theorem getCAll_spec (hnames : r.WellNamed o) (h : r.Consistent o s) :
    r.Consistent o (r.getCAll s).2 ∧ Grows s.child2Parent (r.getCAll s).2.child2Parent ∧
      Recorded (r.getCAll s).2.child2Parent (· ∈ r.modules) r.getSourcesFromAwb := by
  cases hfiles : s.allSourceFiles with
  | some files =>
    rw [getCAll, hfiles]
    exact ⟨h, fun _ _ hp => hp, h.allSourceFiles (by simp [hfiles])⟩
  | none =>
    obtain ⟨hawb, htable, hmodules⟩ := getAwbAll_spec h
    obtain ⟨hcons, hgrows, hrecorded⟩ := hawb.scan r.getSourcesFromAwb (r.getAwbAll s).1
      (fun f hf => listable_of_isAwb (hnames.modules f ((hmodules f).mp hf)))
      (fun f hf c hc => .source ((hmodules f).mp hf) hc)
    have hall := fun f hf => hrecorded f ((hmodules f).mpr hf)
    simp only [getCAll, hfiles]
    exact ⟨{ hcons with allSourceFiles := fun _ => hall }, (Grows.of_eq htable).trans hgrows, hall⟩

theorem getAwbChanged_spec (hnames : r.WellNamed o) (h : r.Consistent o s) :
    r.Consistent o (r.getAwbChanged o s).2 ∧
      Grows s.child2Parent (r.getAwbChanged o s).2.child2Parent ∧
      ∀ w, w ∈ (r.getAwbChanged o s).1 ↔ r.ChangedModule o w := by
  cases hfiles : s.changedAwb with
  | some files =>
    rw [getAwbChanged, hfiles]
    exact ⟨h, fun _ _ hp => hp, h.changedAwb files hfiles⟩
  | none =>
    obtain ⟨hcons, hgrows, hrecorded⟩ := getCAll_spec hnames h
    have hparents : ∀ c ∈ o.initChangedSource, ∀ w,
        w ∈ getParents (r.getCAll s).2.child2Parent c ↔
          w ∈ r.modules ∧ c ∈ r.getSourcesFromAwb w := by
      intro c hc w
      have hkind := List.mem_filter.mp (mem_setAdd_nil.mp hc)
      have hboth : isApm c = false ∧ isAwb c = false := by simpa using hkind.2
      constructor
      · exact fun hw => (entered_source_iff hnames hboth.1 hboth.2).mp (hcons.entered w c hw)
      · exact fun hw => hrecorded w hw.1 c hw.2
    have hmem : ∀ w, w ∈ o.initChangedSource.foldl (fun changed src =>
        (getParents (r.getCAll s).2.child2Parent src).foldl setAdd changed) o.initChangedAwb ↔
        r.ChangedModule o w := by
      intro w
      rw [List.mem_foldl_iff (fun src x => x ∈ getParents (r.getCAll s).2.child2Parent src)
        fun l src x => Descend.mem_foldl_addNew, ChangedModule]
      refine or_congr Iff.rfl ⟨?_, ?_⟩
      · rintro ⟨c, hc, hw⟩
        obtain ⟨hmodule, hsource⟩ := (hparents c hc w).mp hw
        exact ⟨hmodule, c, hsource, hc⟩
      · rintro ⟨hmodule, c, hsource, hc⟩
        exact ⟨c, hc, (hparents c hc w).mpr ⟨hmodule, hsource⟩⟩
    simp only [getAwbChanged, hfiles]
    exact ⟨{ hcons with changedAwb := .some hmem }, hgrows, hmem⟩

theorem mem_addModels {table : Child2Parent} {changed : List Text} {awb m : Text} :
    m ∈ addModels table changed awb ↔ m ∈ changed ∨ ∃ apm ∈ getParents table awb,
      m = apm ∨ m ∈ getParents table apm ∧ isApm m := by
  refine List.mem_foldl_iff (fun apm x => x = apm ∨ x ∈ getParents table apm ∧ isApm x)
    fun l apm x => ?_
  rw [Descend.mem_foldl_addNew, Descend.mem_addNew, List.mem_filter, or_assoc]

theorem isAwb_of_changedModule (hnames : r.WellNamed o) {w : Text} (hw : r.ChangedModule o w) :
    isAwb w := by
  obtain hw | ⟨hw, -⟩ := hw
  · have hkind := (List.mem_filter.mp (mem_setAdd_nil.mp hw)).2
    exact (Bool.and_eq_true_iff.mp hkind).2
  · exact (hnames.modules w hw).1

theorem isApm_of_changedModel (hnames : r.WellNamed o) {m : Text} (hm : r.ChangedModel o m) :
    isApm m := by
  obtain hm | ⟨hm | hm, -⟩ | ⟨hm, -⟩ := hm
  · exact (List.mem_filter.mp (mem_setAdd_nil.mp hm)).2
  · exact (hnames.usedModel hm).1
  · exact (hnames.models m hm).1
  · exact (hnames.namedModel hm).1

/-- The models that the changed modules lead to. -/
theorem mem_models_iff (hnames : r.WellNamed o) (h : r.Consistent o s)
    (hall : Recorded s.child2Parent (fun m => r.Used o m ∨ m ∈ r.models) r.getAwbsFromApm)
    {awbs : List Text} (hawbs : ∀ w, w ∈ awbs ↔ r.ChangedModule o w) {m : Text} :
    (∃ w ∈ awbs, ∃ apm ∈ getParents s.child2Parent w,
      m = apm ∨ m ∈ getParents s.child2Parent apm ∧ isApm m) ↔
    (r.Used o m ∨ m ∈ r.models) ∧ r.NamesChanged o m ∨
      m ∈ r.named o ∧ ∃ d, Relation.TransGen r.HasSubmodel m d ∧ r.NamesChanged o d := by
  constructor
  · rintro ⟨w, hw, apm, hapm, hm⟩
    have hchanged := (hawbs w).mp hw
    obtain ⟨hfound, hnames'⟩ := (entered_module_iff hnames
      (isAwb_of_changedModule hnames hchanged)).mp (h.entered apm w hapm)
    obtain rfl | ⟨hm, hkind⟩ := hm
    · exact .inl ⟨hfound, w, hnames', hchanged⟩
    · have hmodel : isApm apm :=
        hfound.elim (fun hu => (hnames.usedModel hu).1) fun hu => (hnames.models apm hu).1
      obtain ⟨hexp, -⟩ | ⟨hnamed, hbelow⟩ :=
        (entered_model_iff hnames hmodel).mp (h.entered m apm hm)
      · exact absurd hkind (Bool.eq_false_iff.mp (hnames.exp_not_isApm hexp))
      · exact .inr ⟨hnamed, apm, hbelow, w, hnames', hchanged⟩
  · rintro (⟨hfound, w, hw, hchanged⟩ | ⟨hnamed, d, hbelow, w, hw, hchanged⟩)
    · exact ⟨w, (hawbs w).mpr hchanged, m, hall m hfound w hw, .inl rfl⟩
    · have hused : r.Used o d := .inr ⟨m, hnamed, hbelow⟩
      exact ⟨w, (hawbs w).mpr hchanged, d, hall d (.inl hused) w hw,
        .inr ⟨h.below m hnamed d hbelow, (hnames.namedModel hnamed).1⟩⟩

theorem getApmChanged_spec (hnames : r.WellNamed o) (h : r.Consistent o s) :
    r.Consistent o (r.getApmChanged o s).2 ∧
      Grows s.child2Parent (r.getApmChanged o s).2.child2Parent ∧
      ∀ m, m ∈ (r.getApmChanged o s).1 ↔ r.ChangedModel o m := by
  cases hfiles : s.changedApm with
  | some files =>
    rw [getApmChanged, hfiles]
    exact ⟨h, fun _ _ hp => hp, h.changedApm files hfiles⟩
  | none =>
    obtain ⟨hcons, hgrows, hused⟩ := getAwbS_spec hnames h
    obtain ⟨hcons', htable, hmissed⟩ := getApmMissed_spec hcons
    obtain ⟨hscan, hgrows', hrecorded⟩ := hcons'.scan r.getAwbsFromApm
      (r.getApmMissed (r.getAwbS s).2).1
      (fun f hf => listable_of_isApm (hnames.models f ((hmissed f).mp hf).1))
      (fun f hf c hc => .module (.inr ((hmissed f).mp hf).1) hc)
    obtain ⟨hlast, hgrows'', hawbs⟩ := getAwbChanged_spec hnames hscan
    simp only [getApmChanged, hfiles]
    generalize r.getAwbChanged o _ = awbs at hlast hgrows'' hawbs ⊢
    have hall : Recorded awbs.2.child2Parent (fun m => r.Used o m ∨ m ∈ r.models)
        r.getAwbsFromApm := by
      intro m hm w hw
      by_cases hm' : r.Used o m
      · exact hgrows'' _ _ (hgrows' _ _ (Grows.of_eq htable _ _ (hused m hm' w hw)))
      · exact hgrows'' _ _ (hrecorded m ((hmissed m).mpr ⟨hm.resolve_left hm', hm'⟩) w hw)
    have hmem : ∀ m, m ∈ awbs.1.foldl (addModels awbs.2.child2Parent) o.initChangedApm ↔
        r.ChangedModel o m := by
      intro m
      refine Iff.trans (List.mem_foldl_iff (fun w x => ∃ apm ∈ getParents awbs.2.child2Parent w,
        x = apm ∨ x ∈ getParents awbs.2.child2Parent apm ∧ isApm x)
        fun l w x => mem_addModels) ?_
      exact or_congr Iff.rfl (mem_models_iff hnames hlast hall hawbs)
    exact ⟨{ hlast with changedApm := .some hmem },
      ((hgrows.trans (.of_eq htable)).trans hgrows').trans hgrows'', hmem⟩

theorem getExpChanged_spec (hnames : r.WellNamed o) (h : r.Consistent o s) :
    r.Consistent o (r.getExpChanged o s).2 ∧
      Grows s.child2Parent (r.getExpChanged o s).2.child2Parent ∧
      ∀ e, e ∈ (r.getExpChanged o s).1 ↔
        e ∈ r.exps o ∧ ∃ m ∈ r.getApmsFromExp e, r.ChangedModel o m := by
  cases hfiles : s.changedExp with
  | some files =>
    rw [getExpChanged, hfiles]
    exact ⟨h, fun _ _ hp => hp, h.changedExp files hfiles⟩
  | none =>
    obtain ⟨hcons, hgrows, hrecorded⟩ := getExpAll_spec hnames h
    obtain ⟨hlast, hgrows', hapms⟩ := getApmChanged_spec hnames hcons
    simp only [getExpChanged, hfiles]
    generalize r.getApmChanged o _ = apms at hlast hgrows' hapms ⊢
    have hmem : ∀ e, e ∈ apms.1.foldl (fun changed apm =>
        ((getParents apms.2.child2Parent apm).filter fun exp => !isApm exp).foldl setAdd changed)
          [] ↔ e ∈ r.exps o ∧ ∃ m ∈ r.getApmsFromExp e, r.ChangedModel o m := by
      intro e
      rw [List.mem_foldl_iff (fun apm x => x ∈ (getParents apms.2.child2Parent apm).filter
        fun exp => !isApm exp) fun l apm x => Descend.mem_foldl_addNew,
        or_iff_right List.not_mem_nil]
      constructor
      · rintro ⟨m, hm, he⟩
        obtain ⟨he, hkind⟩ := List.mem_filter.mp he
        have hchanged := (hapms m).mp hm
        have hkind' : isApm e = false := by simpa using hkind
        obtain ⟨hexp, hnamed⟩ | ⟨hnamed, -⟩ := (entered_model_iff hnames
          (isApm_of_changedModel hnames hchanged)).mp (hlast.entered e m he)
        · exact ⟨hexp, m, hnamed, hchanged⟩
        · exact absurd (hnames.namedModel hnamed).1 (Bool.eq_false_iff.mp hkind')
      · rintro ⟨hexp, m, hnamed, hchanged⟩
        refine ⟨m, (hapms m).mpr hchanged, List.mem_filter.mpr ⟨?_, ?_⟩⟩
        · exact hgrows' _ _ (hrecorded e hexp m hnamed)
        · rw [hnames.exp_not_isApm hexp]
          rfl
    exact ⟨{ hlast with changedExp := .some hmem }, hgrows.trans hgrows', hmem⟩

/-- Every request keeps the invariant. -/
theorem request_spec (hnames : r.WellNamed o) (h : r.Consistent o s) (q : Request) :
    r.Consistent o (r.request o s q) := by
  cases q with
  | expAll => exact (getExpAll_spec hnames h).1
  | expChanged => exact (getExpChanged_spec hnames h).1
  | apmAll => exact (getApmAll_spec h).1
  | apmMissed => exact (getApmMissed_spec h).1
  | apmChanged => exact (getApmChanged_spec hnames h).1
  | awbS => exact (getAwbS_spec hnames h).1
  | awbAll => exact (getAwbAll_spec h).1
  | awbChanged => exact (getAwbChanged_spec hnames h).1
  | cAll => exact (getCAll_spec hnames h).1

/-- So does every sequence of requests. -/
theorem requests_spec (hnames : r.WellNamed o) (h : r.Consistent o s) (qs : List Request) :
    r.Consistent o (qs.foldl (r.request o) s) := by
  induction qs generalizing s with
  | nil => exact h
  | cons q qs ih => exact ih (request_spec hnames h q)

end

end Repository

end Awb.Coverage
