import Awb.Coverage.Consistent

/-! When the sets of changed models and experiments are exact: every model that reaches a changed
file is in them, and no other. -/

namespace Awb.Coverage

/-- A file is given as changed. -/
def Options.Given (o : Options) (f : Text) : Prop := f ∈ perlSplit ',' o.changed

namespace Repository
variable (r : Repository) (o : Options)

/-! ### What the sets are for -/

/-- One file refers to another. -/
inductive Refers : Text → Text → Prop
  | submodel {m d} : isApm m → r.HasSubmodel m d → Refers m d
  | module {m w} : isApm m → w ∈ r.getAwbsFromApm m → Refers m w
  | source {w c} : isAwb w → c ∈ r.getSourcesFromAwb w → Refers w c

/-- A model that is known reaches a changed file. -/
def Impacted (m : Text) : Prop :=
  (m ∈ r.models ∨ o.Given m ∧ isApm m) ∧ ∃ f, Relation.ReflTransGen r.Refers m f ∧ o.Given f

/-- Whatever is printed before, the changed models are those that reach a changed file, and the
changed experiments those that name such a model. -/
def ChangedExactly : Prop :=
  ∃ fuel s, r.setUp o fuel = some s ∧ ∀ requests : List Request,
    let s' := requests.foldl (r.request o) s
    (∀ m, m ∈ (r.getApmChanged o s').1 ↔ r.Impacted o m) ∧
      ∀ e, e ∈ (r.getExpChanged o s').1 ↔
        e ∈ r.exps o ∧ ∃ m ∈ r.getApmsFromExp e, r.Impacted o m

/-- A model is given, or a module of it, or a source of one. -/
def Touched (m : Text) : Prop :=
  o.Given m ∨ ∃ w ∈ r.getAwbsFromApm m, o.Given w ∨ ∃ c ∈ r.getSourcesFromAwb w, o.Given c

/-- Where the references that the table has lead to all models that reach a changed file. -/
structure Traceable : Prop where
  ends : ∀ m ∈ r.named o, Acc (fun d m => r.HasSubmodel m d) m
  traced : ∀ m ∈ r.models, ¬ o.Given m →
    ∀ d, Relation.ReflTransGen r.HasSubmodel m d → r.Touched o d →
      r.NamesChanged o m ∨
        m ∈ r.named o ∧ ∃ n, Relation.TransGen r.HasSubmodel m n ∧ r.NamesChanged o n
  known : ∀ m, r.Used o m → m ∉ r.models → ¬ o.Given m → ¬ r.NamesChanged o m ∧
    (m ∈ r.named o → ∀ d, Relation.TransGen r.HasSubmodel m d → ¬ r.NamesChanged o d)

variable {r o}

/-! ### The main program -/

theorem getApmS_start : (∀ m, m ∈ (r.getApmS (r.start o)).1 ↔ m ∈ r.named o) ∧
    ∃ exps, (r.getApmS (r.start o)).2 =
      ⟨exps, some (r.getApmS (r.start o)).1, none, none, none, none, none, none, none, none, none,
        fun _ => []⟩ := by
  by_cases hmodel : o.model ≠ []
  · rw [start, if_pos hmodel, named, if_pos hmodel]
    exact ⟨fun m => Iff.rfl, [], rfl⟩
  · rw [start, if_neg hmodel, named, if_neg hmodel]
    refine ⟨fun m => ?_, _, rfl⟩
    rw [getApmS, mem_sortFiles, mem_setAdd_nil, List.mem_flatMap, List.mem_flatMap]
    exact exists_congr fun e => and_congr mem_setAdd_nil Iff.rfl

theorem start_child2Parent : (r.start o).child2Parent = fun _ => [] := by
  unfold start
  split_ifs <;> rfl

theorem getApmsFromApm_eq {fuel : Nat} {m d : Text} (h : (r.getApmsFromApm fuel m).isSome) :
    d ∈ (r.getApmsFromApm fuel m).getD [] ↔ Relation.TransGen r.HasSubmodel m d := by
  obtain ⟨found, hfound⟩ := Option.isSome_iff_exists.mp h
  rw [hfound, Option.getD_some]
  exact Descend.mem_descend hfound

/-- The invariant holds when the main program begins to print. -/
theorem setUp_consistent (hnames : r.WellNamed o) {fuel : Nat} {s : State}
    (h : r.setUp o fuel = some s) : r.Consistent o s := by
  obtain ⟨hnamed, exps, hstate⟩ := getApmS_start (r := r) (o := o)
  simp only [setUp, getApmSubModels] at h
  split_ifs at h with hfuel
  obtain rfl := Option.some.inj h
  have hbelow : ∀ m ∈ (r.getApmS (r.start o)).1, ∀ d,
      d ∈ (r.getApmsFromApm fuel m).getD [] ↔ Relation.TransGen r.HasSubmodel m d :=
    fun m hm d => getApmsFromApm_eq (List.all_eq_true.mp hfuel m hm)
  have hstart : Clean ((([] : List Text), (r.start o).child2Parent)).2 := by
    rw [start_child2Parent]
    exact clean_nil
  obtain ⟨hclean, hfound, htable⟩ := scan_spec
    (fun apm => (r.getApmsFromApm fuel apm).getD []) hstart
    fun m hm => listable_of_isApm (hnames.namedModel ((hnamed m).mp hm))
  simp only [hstate]
  exact {
    used := ⟨_, rfl, fun m => by
      rw [Descend.mem_foldl_addNew, hfound, or_iff_right List.not_mem_nil, hnamed, Used]
      refine or_congr Iff.rfl (exists_congr fun top => ?_)
      rw [hnamed]
      exact and_congr_right fun htop => hbelow top ((hnamed top).mpr htop) m⟩
    clean := hclean
    entered := fun p c hp => by
      obtain hp | ⟨hp, hc⟩ := (htable p c).mp hp
      · rw [start_child2Parent] at hp
        exact absurd hp List.not_mem_nil
      · exact .submodel ((hnamed p).mp hp) ((hbelow p hp c).mp hc)
    below := fun m hm d hd => (htable m d).mpr
      (.inr ⟨(hnamed m).mpr hm, (hbelow m ((hnamed m).mpr hm) d).mpr hd⟩)
    awbFiles := fun hne => absurd rfl hne
    allExp := fun hne => absurd rfl hne
    allSourceFiles := fun hne => absurd rfl hne
    allApm := fun _ hsome => nomatch hsome
    allAwb := fun _ hsome => nomatch hsome
    missedApm := fun _ hsome => nomatch hsome
    changedAwb := fun _ hsome => nomatch hsome
    changedApm := fun _ hsome => nomatch hsome
    changedExp := fun _ hsome => nomatch hsome }

/-- The main program comes to print something unless a model that is named contains itself. -/
theorem exists_setUp_iff : (∃ fuel s, r.setUp o fuel = some s) ↔
    ∀ m ∈ r.named o, Acc (fun d m => r.HasSubmodel m d) m := by
  obtain ⟨hnamed, -⟩ := getApmS_start (r := r) (o := o)
  have hsome : ∀ fuel, (∃ s, r.setUp o fuel = some s) ↔
      ∀ m ∈ r.named o, (r.getApmsFromApm fuel m).isSome := by
    intro fuel
    unfold setUp getApmSubModels
    simp only [← hnamed]
    split_ifs with hfuel
    · exact iff_of_true ⟨_, rfl⟩ (List.all_eq_true.mp hfuel)
    · exact iff_of_false (by simp) fun hall => hfuel (List.all_eq_true.mpr hall)
  simp only [hsome]
  constructor
  · rintro ⟨fuel, hfuel⟩ m hm
    exact Descend.exists_descend_iff.mp ⟨fuel, hfuel m hm⟩
  · exact fun h => Descend.exists_fuel fun m hm => Descend.exists_descend_iff.mpr (h m hm)

/-! ### Chains of references -/

theorem given_iff {m : Text} (h : isApm m) : m ∈ o.initChangedApm ↔ o.Given m := by
  rw [Options.initChangedApm, mem_setAdd_nil, List.mem_filter, and_iff_left h]
  rfl

theorem submodels_refer (hnames : r.WellNamed o) {m d : Text} (hm : isApm m)
    (h : Relation.ReflTransGen r.HasSubmodel m d) :
    Relation.ReflTransGen r.Refers m d ∧ isApm d := by
  induction h with
  | refl => exact ⟨.refl, hm⟩
  | tail _ hlast ih => exact ⟨ih.1.tail (.submodel ih.2 hlast), (hnames.submodel hlast).1⟩

/-- Sources refer to nothing, so a chain from a module is short. -/
theorem reaches_of_module (hnames : r.WellNamed o) {w f : Text} (hw : isAwb w)
    (h : Relation.ReflTransGen r.Refers w f) : f = w ∨ f ∈ r.getSourcesFromAwb w := by
  obtain rfl | ⟨c, hc, hrest⟩ := h.cases_head
  · exact .inl rfl
  · cases hc with
    | submodel hkind _ => exact absurd hw (Bool.eq_false_iff.mp (not_isAwb_of_isApm hkind))
    | module hkind _ => exact absurd hw (Bool.eq_false_iff.mp (not_isAwb_of_isApm hkind))
    | source _ hsource =>
      obtain ⟨hapm, hawb⟩ := hnames.source w c hsource
      obtain rfl | ⟨_, hnext, -⟩ := hrest.cases_head
      · exact .inr hsource
      · cases hnext with
        | submodel hkind _ => exact absurd hkind (Bool.eq_false_iff.mp hapm)
        | module hkind _ => exact absurd hkind (Bool.eq_false_iff.mp hapm)
        | source hkind _ => exact absurd hkind (Bool.eq_false_iff.mp hawb)

/-- A model reaches a changed file by its submodels, and from one of these directly. -/
theorem reaches_iff (hnames : r.WellNamed o) {m : Text} (hm : isApm m) :
    (∃ f, Relation.ReflTransGen r.Refers m f ∧ o.Given f) ↔
      ∃ d, Relation.ReflTransGen r.HasSubmodel m d ∧ r.Touched o d := by
  constructor
  · rintro ⟨f, hchain, hf⟩
    revert hm
    induction hchain using Relation.ReflTransGen.head_induction_on with
    | refl => exact fun _ => ⟨f, .refl, .inl hf⟩
    | head hfirst hrest ih =>
      intro hm
      cases hfirst with
      | submodel _ hsub =>
        obtain ⟨d, hd, htouched⟩ := ih (hnames.submodel hsub).1
        exact ⟨d, .head hsub hd, htouched⟩
      | module _ hw =>
        refine ⟨_, .refl, .inr ⟨_, hw, ?_⟩⟩
        obtain rfl | hsource := reaches_of_module hnames (hnames.awb hw) hrest
        · exact .inl hf
        · exact .inr ⟨f, hsource, hf⟩
      | source hkind _ => exact absurd hkind (Bool.eq_false_iff.mp (not_isAwb_of_isApm hm))
  · rintro ⟨d, hchain, htouched⟩
    obtain ⟨hchain, hd⟩ := submodels_refer hnames hm hchain
    obtain hgiven | ⟨w, hw, hgiven | ⟨c, hc, hgiven⟩⟩ := htouched
    · exact ⟨d, hchain, hgiven⟩
    · exact ⟨w, hchain.tail (.module hd hw), hgiven⟩
    · exact ⟨c, (hchain.tail (.module hd hw)).tail (.source (hnames.awb hw) hc), hgiven⟩

/-- A changed module is given, or a source of it is. -/
theorem touched_of_namesChanged {m : Text} (h : r.NamesChanged o m) : r.Touched o m := by
  obtain ⟨w, hw, hchanged | ⟨-, c, hc, hchanged⟩⟩ := h
  · exact .inr ⟨w, hw, .inl (List.mem_filter.mp (mem_setAdd_nil.mp hchanged)).1⟩
  · exact .inr ⟨w, hw, .inr ⟨c, hc, (List.mem_filter.mp (mem_setAdd_nil.mp hchanged)).1⟩⟩

/-- A model that is taken for changed reaches a changed file. -/
theorem reaches_of_changedModel (hnames : r.WellNamed o) {m : Text} (h : r.ChangedModel o m) :
    ∃ f, Relation.ReflTransGen r.Refers m f ∧ o.Given f := by
  have hm := isApm_of_changedModel hnames h
  rw [reaches_iff hnames hm]
  obtain h | ⟨-, h⟩ | ⟨-, d, hd, h⟩ := h
  · exact ⟨m, .refl, .inl ((given_iff hm).mp h)⟩
  · exact ⟨m, .refl, touched_of_namesChanged h⟩
  · exact ⟨d, hd.to_reflTransGen, touched_of_namesChanged h⟩

theorem isApm_of_impacted (hnames : r.WellNamed o) {m : Text} (h : r.Impacted o m) : isApm m :=
  h.1.elim (fun hm => (hnames.models m hm).1) And.right

/-- The two notions of a changed model agree exactly if the references are traced. -/
theorem changedModel_iff_impacted (hnames : r.WellNamed o) :
    (∀ m, r.ChangedModel o m ↔ r.Impacted o m) ↔
    (∀ m ∈ r.models, ¬ o.Given m →
      ∀ d, Relation.ReflTransGen r.HasSubmodel m d → r.Touched o d →
        r.NamesChanged o m ∨
          m ∈ r.named o ∧ ∃ n, Relation.TransGen r.HasSubmodel m n ∧ r.NamesChanged o n) ∧
    ∀ m, r.Used o m → m ∉ r.models → ¬ o.Given m → ¬ r.NamesChanged o m ∧
      (m ∈ r.named o → ∀ d, Relation.TransGen r.HasSubmodel m d → ¬ r.NamesChanged o d) := by
  constructor
  · intro h
    refine ⟨fun m hm hgiven d hd htouched => ?_, fun m hused hm hgiven => ?_⟩
    · have hkind := (hnames.models m hm).1
      have himpacted : r.Impacted o m :=
        ⟨.inl hm, (reaches_iff hnames hkind).mpr ⟨d, hd, htouched⟩⟩
      obtain hinit | ⟨-, hnaming⟩ | hbelow := (h m).mpr himpacted
      · exact absurd ((given_iff hkind).mp hinit) hgiven
      · exact .inl hnaming
      · exact .inr hbelow
    · have hnot : ¬ r.ChangedModel o m := fun hchanged =>
        ((h m).mp hchanged).1.elim hm fun hg => hgiven hg.1
      exact ⟨fun hnaming => hnot (.inr (.inl ⟨.inl hused, hnaming⟩)),
        fun hnamed d hd hnaming => hnot (.inr (.inr ⟨hnamed, d, hd, hnaming⟩))⟩
  · rintro ⟨htraced, hknown⟩ m
    constructor
    · intro hchanged
      refine ⟨?_, reaches_of_changedModel hnames hchanged⟩
      have hkind := isApm_of_changedModel hnames hchanged
      by_contra hnot
      obtain ⟨hm, hgiven⟩ := not_or.mp hnot
      have hgiven' : ¬ o.Given m := fun hg => hgiven ⟨hg, hkind⟩
      obtain hinit | ⟨hfound, hnaming⟩ | ⟨hnamed, d, hd, hnaming⟩ := hchanged
      · exact hgiven' ((given_iff hkind).mp hinit)
      · exact (hknown m (hfound.resolve_right hm) hm hgiven').1 hnaming
      · exact (hknown m (.inl hnamed) hm hgiven').2 hnamed d hd hnaming
    · intro himpacted
      have hkind := isApm_of_impacted hnames himpacted
      by_cases hgiven : o.Given m
      · exact .inl ((given_iff hkind).mpr hgiven)
      · have hm := himpacted.1.resolve_right fun hg => hgiven hg.1
        obtain ⟨d, hd, htouched⟩ := (reaches_iff hnames hkind).mp himpacted.2
        obtain hnaming | hbelow := htraced m hm hgiven d hd htouched
        · exact .inr (.inl ⟨.inr hm, hnaming⟩)
        · exact .inr (.inr hbelow)

theorem traceable_of_changedExactly (hnames : r.WellNamed o) (h : r.ChangedExactly o) :
    r.Traceable o := by
  obtain ⟨fuel, s, hs, hall⟩ := h
  have hcons := setUp_consistent hnames hs
  have hsame : ∀ m, r.ChangedModel o m ↔ r.Impacted o m := fun m =>
    ((getApmChanged_spec hnames hcons).2.2 m).symm.trans ((hall []).1 m)
  obtain ⟨htraced, hknown⟩ := (changedModel_iff_impacted hnames).mp hsame
  exact ⟨exists_setUp_iff.mp ⟨fuel, s, hs⟩, htraced, hknown⟩

/-- The sets are exact if and only if the references that lead to changed files are traced. -/
theorem changedExactly_iff (hnames : r.WellNamed o) : r.ChangedExactly o ↔ r.Traceable o := by
  refine ⟨traceable_of_changedExactly hnames, ?_⟩
  rintro ⟨hends, htraced, hknown⟩
  obtain ⟨fuel, s, hs⟩ := exists_setUp_iff.mpr hends
  have hsame := (changedModel_iff_impacted hnames).mpr ⟨htraced, hknown⟩
  refine ⟨fuel, s, hs, fun requests => ?_⟩
  have hcons := requests_spec hnames (setUp_consistent hnames hs) requests
  refine ⟨fun m => ((getApmChanged_spec hnames hcons).2.2 m).trans (hsame m), fun e => ?_⟩
  rw [(getExpChanged_spec hnames hcons).2.2 e]
  simp only [hsame]

/-! ### A model that no experiment names -/

/-- `top.apm` has the submodel `sub.apm`, which has the module `core.awb`. -/
def topAndSub : Repository where
  rootdir := "/w".toList
  resolve f :=
    if ["top.apm".toList, "sub.apm".toList, "core.awb".toList].contains f then some f else none
  lines f :=
    if f = "top.apm".toList then ["File=sub.apm".toList]
    else if f = "sub.apm".toList then ["File=core.awb".toList]
    else []
  moduleFile _ := some ⟨[], [], []⟩
  isFile _ := true
  packages := ["p".toList]
  globExperiments _ _ _ := []
  findApm _ := ["top.apm".toList, "sub.apm".toList]
  findAwb _ := ["core.awb".toList]

def given (changed : String) : Options where
  experiments := "regression".toList
  package := []
  model := []
  changed := changed.toList

theorem topAndSub_lines (f : Text) : f = "top.apm".toList ∧
      topAndSub.lines f = ["File=sub.apm".toList] ∨
    f = "sub.apm".toList ∧ topAndSub.lines f = ["File=core.awb".toList] ∨
    topAndSub.lines f = [] := by
  by_cases htop : f = "top.apm".toList
  · exact .inl ⟨htop, if_pos htop⟩
  · have hrest : topAndSub.lines f =
      if f = "sub.apm".toList then ["File=core.awb".toList] else [] := if_neg htop
    by_cases hsub : f = "sub.apm".toList
    · exact .inr (.inl ⟨hsub, hrest.trans (if_pos hsub)⟩)
    · exact .inr (.inr (hrest.trans (if_neg hsub)))

theorem topAndSub_wellNamed (changed : String) : topAndSub.WellNamed (given changed) where
  resolve f g h := by
    obtain ⟨filename, hfile, rfl⟩ := Option.map_eq_some_iff.mp h
    simp only [topAndSub] at hfile
    split_ifs at hfile with hmem
    obtain rfl := Option.some.inj hfile
    have hall : ∀ f ∈ ["top.apm".toList, "sub.apm".toList, "core.awb".toList],
        ¬ (topAndSub.rootdir ++ ['/']).isPrefixOf f ∧ ',' ∉ f := by decide
    obtain ⟨hroot, hcomma⟩ := hall f (List.contains_iff_mem.mp hmem)
    simp only [if_neg hroot]
    exact ⟨List.suffix_rfl, hcomma⟩
  experiment packages e he := by
    obtain ⟨pkg, -, he⟩ := List.mem_flatMap.mp he
    obtain ⟨type, -, he⟩ := List.mem_flatMap.mp he
    obtain ⟨ext, -, he⟩ := List.mem_flatMap.mp he
    exact absurd he List.not_mem_nil
  named e m hm := by
    have hnone : topAndSub.getApmsFromExp e = [] := by
      obtain ⟨-, hlines⟩ | ⟨-, hlines⟩ | hlines := topAndSub_lines e
      · rw [getApmsFromExp, hlines]
        decide
      · rw [getApmsFromExp, hlines]
        decide
      · rw [getApmsFromExp, hlines]
        rfl
    rw [hnone] at hm
    exact absurd hm List.not_mem_nil
  model h := absurd rfl h
  models := by decide
  modules := by decide
  source w c hc := absurd hc List.not_mem_nil

theorem topAndSub_submodels {m d : Text} (h : topAndSub.HasSubmodel m d) :
    m = "top.apm".toList ∧ d = "sub.apm".toList := by
  unfold HasSubmodel submodels filesFromApm at h
  obtain ⟨hm, hlines⟩ | ⟨-, hlines⟩ | hlines := topAndSub_lines m
  · rw [hlines] at h
    have hd : d ∈ ["sub.apm".toList] := h
    exact ⟨hm, List.mem_singleton.mp hd⟩
  · rw [hlines] at h
    exact absurd h List.not_mem_nil
  · rw [hlines] at h
    exact absurd h List.not_mem_nil

theorem topAndSub_named (changed : String) (m : Text) :
    m ∉ topAndSub.named (given changed) := by
  have hnil : topAndSub.named (given changed) = [] := rfl
  rw [hnil]
  exact List.not_mem_nil

/-- When the module is given, `top.apm` is missed. -/
theorem not_changedExactly : topAndSub.WellNamed (given "core.awb") ∧
    ¬ topAndSub.ChangedExactly (given "core.awb") := by
  refine ⟨topAndSub_wellNamed _, fun h => ?_⟩
  obtain ⟨-, htraced, -⟩ := traceable_of_changedExactly (topAndSub_wellNamed _) h
  have hchain : Relation.ReflTransGen topAndSub.HasSubmodel "top.apm".toList "sub.apm".toList :=
    .single (by decide : "sub.apm".toList ∈ topAndSub.submodels "top.apm".toList)
  have htouched : topAndSub.Touched (given "core.awb") "sub.apm".toList :=
    .inr ⟨"core.awb".toList, by decide, .inl (by decide :
      "core.awb".toList ∈ perlSplit ',' (given "core.awb").changed)⟩
  obtain ⟨w, hw, -⟩ | ⟨hnamed, -⟩ := htraced _ (by decide) (by decide :
    "top.apm".toList ∉ perlSplit ',' (given "core.awb").changed) _ hchain htouched
  · have hnone : topAndSub.getAwbsFromApm "top.apm".toList = [] := by decide
    rw [hnone] at hw
    exact List.not_mem_nil hw
  · exact topAndSub_named _ _ hnamed

/-- When `top.apm` itself is given, the sets are exact. -/
theorem topAndSub_exact : topAndSub.ChangedExactly (given "top.apm") := by
  refine (changedExactly_iff (topAndSub_wellNamed "top.apm")).mpr ⟨?_, ?_, ?_⟩
  · exact fun m hm => absurd hm (topAndSub_named _ m)
  · intro m hm hgiven d hd htouched
    exfalso
    have hmodels : m ∈ ["top.apm".toList, "sub.apm".toList] := hm
    obtain rfl | rfl := List.mem_pair.mp hmodels
    · exact hgiven (by decide : "top.apm".toList ∈ perlSplit ',' (given "top.apm").changed)
    · have hsame : d = "sub.apm".toList := by
        obtain hsame | ⟨n, hn, -⟩ := hd.cases_head
        · exact hsame.symm
        · exact absurd (topAndSub_submodels hn).1 (by decide)
      subst hsame
      obtain hg | ⟨w, hw, hg | ⟨c, hc, -⟩⟩ := htouched
      · exact hgiven hg
      · have honly : topAndSub.getAwbsFromApm "sub.apm".toList = ["core.awb".toList] := by decide
        rw [honly] at hw
        obtain rfl := List.mem_singleton.mp hw
        exact absurd hg (by decide :
          "core.awb".toList ∉ perlSplit ',' (given "top.apm").changed)
      · exact absurd hc List.not_mem_nil
  · rintro m (hm | ⟨top, htop, -⟩)
    · exact absurd hm (topAndSub_named _ m)
    · exact absurd htop (topAndSub_named _ top)

end Repository

end Awb.Coverage
