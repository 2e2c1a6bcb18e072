import Awb.Coverage.Files
import Awb.Run.Experiments
import Awb.SearchPath.Regex

/-! The experiments of a pruned regression: those of a package whose models are changed. A changed
model is looked for as a pattern in the lines of the experiments. -/

namespace Awb.Regression.Pruned

open SearchPath (Dotted dottedPatterns occurs_of_infix)

/-! ### Changed models -/

/-- `/src\/asim-(.*)\/(config\/.*)/`, the package and the model. -/
def changedModel : Text → Option (Text × Text)
  | [] => none
  | c :: cs =>
    let behind := (c :: cs).drop 9
    match if "src/asim-".toList.isPrefixOf (c :: cs) then Coverage.greedy "/config/".toList behind
      else none with
    | some package => some (package, behind.drop (package.length + 1))
    | none => changedModel cs

/-- The keys of `%changed_models`, those of the lines that have the form of a model. -/
def changedModels (lines : List Text) : List Text :=
  ((lines.filterMap changedModel).map Prod.snd).dedup

/-! ### Selection -/

/-- `s/\//:/g` -/
def translate (text : Text) : Text := text.map fun c => if c = '/' then ':' else c

section
variable (patterns : SearchPath.Patterns)

/-- The loop over the experiments, which is left at the first one that matches the model. -/
def firstMatch (apm : Text) : List Text → Option (Option Text)
  | [] => some none
  | exp :: explist =>
    (patterns.compile (translate apm)).bind fun hits =>
      if hits (translate exp) then some (some exp) else firstMatch apm explist

/-- The loop over the changed models. -/
def selectExperiments (explist : List Text) : List Text → List Text → Option (List Text)
  | [], pruned => some pruned
  | apm :: changed, pruned =>
    (firstMatch patterns apm explist).bind fun exp =>
      selectExperiments explist changed (pruned ++ exp.toList)

/-- What is written for the lines of an experiments file. -/
def prunedExperiments (lines changed : List Text) : Option (List Text) :=
  selectExperiments patterns (Run.Experiments.readLines lines) changed []

/-- An experiment matches a changed model. -/
def hitsModel (apm exp : Text) : Bool :=
  (patterns.compile (translate apm)).any fun hits => hits (translate exp)

end

/-- The lines of the file that is written. -/
def prunedFile (package runtype : Text) (pruned : List Text) : List Text :=
  ("# Auto-generated from '".toList ++ runtype ++ "' runtype based on changes for ".toList ++
    package ++ ['.']) :: [] :: pruned

/-- The second word of an experiment, as `split` finds it. -/
def modelOf (exp : Text) : Text :=
  (((exp.dropWhile inSpaceClass).dropWhile (!inSpaceClass ·)).dropWhile inSpaceClass).takeWhile
    (!inSpaceClass ·)

/-- Stated once, so that a look-up in a list of texts rests on it by name. -/
theorem lawfulBEq_text : LawfulBEq Text := inferInstance

attribute [local instance] lawfulBEq_text

def isChanged (changed : List Text) (exp : Text) : Bool := modelOf exp ∈ changed

/-- The experiments of changed models are what the changed models match first, one each. -/
structure FoundOnce (patterns : SearchPath.Patterns) (explist changed : List Text) : Prop where
  compiles : explist ≠ [] → ∀ apm ∈ changed, (patterns.compile (translate apm)).isSome
  ofChanged : ∀ apm ∈ changed, ∀ exp,
    explist.find? (hitsModel patterns apm) = some exp → isChanged changed exp = true
  once : ∀ exp ∈ explist, isChanged changed exp = true →
    changed.countP (fun apm => explist.find? (hitsModel patterns apm) = some exp) =
      explist.count exp

/-! ### What is selected -/

variable {patterns : SearchPath.Patterns} {explist changed pruned lines : List Text} {apm exp text : Text}

theorem firstMatch_eq (h : explist ≠ [] → (patterns.compile (translate apm)).isSome) :
    firstMatch patterns apm explist = some (explist.find? (hitsModel patterns apm)) := by
  induction explist with
  | nil => rfl
  | cons exp explist ih =>
    have hsome := h (List.cons_ne_nil exp explist)
    obtain ⟨hits, hhits⟩ := Option.isSome_iff_exists.mp hsome
    have hmodel : hitsModel patterns apm exp = hits (translate exp) := by
      rw [hitsModel, hhits, Option.any_some]
    rw [firstMatch, hhits, Option.bind_some, List.find?_cons, hmodel]
    cases hits (translate exp) with
    | true => rfl
    | false => exact ih fun _ => hsome

theorem compiles_of_firstMatch (h : (firstMatch patterns apm explist).isSome) (hne : explist ≠ []) :
    (patterns.compile (translate apm)).isSome := by
  obtain ⟨exp, explist, rfl⟩ := List.exists_cons_of_ne_nil hne
  rw [firstMatch] at h
  cases hcompile : patterns.compile (translate apm) with
  | some hits => rfl
  | none => rw [hcompile] at h; cases h

theorem selectExperiments_eq
    (h : explist ≠ [] → ∀ apm ∈ changed, (patterns.compile (translate apm)).isSome) :
    selectExperiments patterns explist changed pruned =
      some (pruned ++ changed.filterMap fun apm => explist.find? (hitsModel patterns apm)) := by
  induction changed generalizing pruned with
  | nil => rw [selectExperiments, List.filterMap_nil, List.append_nil]
  | cons apm changed ih =>
    have hfirst := firstMatch_eq fun hne => h hne apm List.mem_cons_self
    rw [selectExperiments, hfirst, Option.bind_some,
      ih fun hne other hother => h hne other (List.mem_cons_of_mem apm hother), List.append_assoc]
    rw [List.filterMap_cons]
    cases explist.find? (hitsModel patterns apm) <;> rfl

theorem compiles_of_selectExperiments
    (h : (selectExperiments patterns explist changed pruned).isSome) (hne : explist ≠ []) :
    ∀ apm ∈ changed, (patterns.compile (translate apm)).isSome := by
  induction changed generalizing pruned with
  | nil => intro apm hapm; cases hapm
  | cons apm changed ih =>
    rw [selectExperiments] at h
    cases hfirst : firstMatch patterns apm explist with
    | none => rw [hfirst] at h; cases h
    | some found =>
      rw [hfirst, Option.bind_some] at h
      intro other hother
      rcases List.mem_cons.mp hother with rfl | hother
      · exact compiles_of_firstMatch (by rw [hfirst]; rfl) hne
      · exact ih h other hother

/-- How often an experiment is selected. -/
theorem count_selected (explist changed : List Text) (exp : Text) :
    (changed.filterMap fun apm => explist.find? (hitsModel patterns apm)).count exp =
      changed.countP fun apm => explist.find? (hitsModel patterns apm) = some exp := by
  rw [List.count, List.countP_filterMap]
  refine List.countP_congr fun apm _ => ?_
  cases explist.find? (hitsModel patterns apm) <;> simp

theorem perm_iff_count :
    (changed.filterMap fun apm => explist.find? (hitsModel patterns apm)).Perm
      (explist.filter (isChanged changed)) ↔
      (∀ apm ∈ changed, ∀ exp, explist.find? (hitsModel patterns apm) = some exp →
        isChanged changed exp = true) ∧
      ∀ exp ∈ explist, isChanged changed exp = true →
        changed.countP (fun apm => explist.find? (hitsModel patterns apm) = some exp) =
          explist.count exp := by
  constructor
  · intro hperm
    refine ⟨fun apm hapm exp hfind => ?_, fun exp _ hchanged => ?_⟩
    · have hmem := hperm.mem_iff.mp (List.mem_filterMap.mpr ⟨apm, hapm, hfind⟩)
      exact (List.mem_filter.mp hmem).2
    · rw [← count_selected, hperm.count_eq, List.count_filter hchanged]
  · rintro ⟨hof, honce⟩
    refine List.perm_iff_count.mpr fun exp => ?_
    rw [count_selected]
    by_cases hexp : exp ∈ explist.filter (isChanged changed)
    · obtain ⟨hmem, hchanged⟩ := List.mem_filter.mp hexp
      rw [honce exp hmem hchanged, List.count_filter hchanged]
    · rw [List.count_eq_zero_of_not_mem hexp, List.countP_eq_zero]
      intro apm hapm hfind
      have hfind := of_decide_eq_true hfind
      exact hexp (List.mem_filter.mpr ⟨List.mem_of_find?_eq_some hfind, hof apm hapm exp hfind⟩)

/-- The experiments of the changed models are selected, each once and no others, exactly if they are
what the changed models match first. -/
theorem prunedExperiments_perm_iff (patterns : SearchPath.Patterns) (lines changed : List Text) :
    (∃ pruned, prunedExperiments patterns lines changed = some pruned ∧
      pruned.Perm ((Run.Experiments.readLines lines).filter (isChanged changed))) ↔
      FoundOnce patterns (Run.Experiments.readLines lines) changed := by
  constructor
  · rintro ⟨pruned, hpruned, hperm⟩
    have hcompiles : Run.Experiments.readLines lines ≠ [] →
        ∀ apm ∈ changed, (patterns.compile (translate apm)).isSome :=
      compiles_of_selectExperiments (Option.isSome_iff_exists.mpr ⟨pruned, hpruned⟩)
    rw [prunedExperiments, selectExperiments_eq hcompiles, List.nil_append] at hpruned
    obtain rfl := Option.some.inj hpruned
    obtain ⟨hof, honce⟩ := perm_iff_count.mp hperm
    exact ⟨hcompiles, hof, honce⟩
  · intro h
    refine ⟨_, selectExperiments_eq h.compiles, ?_⟩
    rw [List.nil_append]
    exact perm_iff_count.mpr ⟨h.ofChanged, h.once⟩

/-- Of two experiments of a changed model the second one is lost. -/
theorem not_selected_sameModel :
    ¬ ∃ pruned, prunedExperiments dottedPatterns
        ["x config/a.apm".toList, "y config/a.apm".toList] ["config/a.apm".toList] = some pruned ∧
      pruned.Perm ((Run.Experiments.readLines
        ["x config/a.apm".toList, "y config/a.apm".toList]).filter
          (isChanged ["config/a.apm".toList])) := by
  rintro ⟨pruned, hpruned, hperm⟩
  have hselected : prunedExperiments dottedPatterns
      ["x config/a.apm".toList, "y config/a.apm".toList] ["config/a.apm".toList] =
        some ["x config/a.apm".toList] := by decide +kernel
  rw [hselected] at hpruned
  obtain rfl := Option.some.inj hpruned
  have hlength : ((Run.Experiments.readLines
      ["x config/a.apm".toList, "y config/a.apm".toList]).filter
        (isChanged ["config/a.apm".toList])).length = 2 := by decide +kernel
  rw [← hperm.length_eq] at hlength
  cases hlength

open Run.Experiments (isContinued readLines)

theorem joinLines_of_complete (h : ∀ line ∈ lines, isContinued line = false) :
    Run.Experiments.joinLines none lines = lines := by
  induction lines with
  | nil => rfl
  | cons line lines ih =>
    rw [Run.Experiments.joinLines, Option.getD_none, List.nil_append,
      if_neg (by rw [h line List.mem_cons_self]; decide),
      ih fun other hother => h other (List.mem_cons_of_mem line hother)]

/-- What is written is read back by the runs. -/
theorem readLines_prunedFile (package runtype : Text)
    (h : ∀ exp ∈ pruned, isContinued exp = false ∧ Run.Experiments.isSkipped exp = false) :
    readLines (prunedFile package runtype pruned) = pruned := by
  have hcomplete : ∀ line ∈ prunedFile package runtype pruned, isContinued line = false := by
    intro line hline
    rcases List.mem_cons.mp hline with rfl | hline
    · rw [isContinued, List.rdropWhile_concat_neg _ _ _ (by decide), List.getLast?_concat]
      rfl
    · rcases List.mem_cons.mp hline with rfl | hline
      · rfl
      · exact (h line hline).1
  have hkept : ∀ exp ∈ pruned, !Run.Experiments.isSkipped exp := fun exp hexp => by
    rw [(h exp hexp).2]
    rfl
  rw [readLines, joinLines_of_complete hcomplete, prunedFile,
    List.filter_cons_of_neg (by simp [Run.Experiments.isSkipped]), List.filter_cons_of_neg (by simp [Run.Experiments.isSkipped]),
    List.filter_eq_self.mpr hkept]

/-- A line with more than blanks in it says whether what it is the end of is continued. -/
theorem isContinued_append {front line : Text} (h : ∃ c ∈ line, inSpaceClass c = false) :
    isContinued (front ++ line) = isContinued line := by
  obtain ⟨c, hc, hspace⟩ := h
  have hne : line.rdropWhile inSpaceClass ≠ [] := fun hnil => by
    rw [List.rdropWhile_eq_nil_iff] at hnil
    rw [hnil c hc] at hspace
    cases hspace
  have hdrop : (front ++ line).rdropWhile inSpaceClass =
      front ++ line.rdropWhile inSpaceClass := by
    have hreverse : line.reverse.dropWhile inSpaceClass ≠ [] := fun hnil =>
      hne (List.reverse_eq_nil_iff.mpr hnil)
    rw [List.rdropWhile, List.reverse_append, List.dropWhile_append,
      if_neg (by simpa using hreverse), List.reverse_append, List.reverse_reverse]
    rfl
  rw [isContinued, isContinued, hdrop, List.getLast?_append_of_ne_nil _ hne]

/-- Joined lines are complete, if the last one is. -/
theorem isContinued_joinLines (pending : Option Text) (lines : List Text)
    (hlast : ∀ line ∈ lines.getLast?, isContinued line = false ∧
      ∃ c ∈ line, inSpaceClass c = false) (hpending : lines = [] → pending = none) :
    ∀ exp ∈ Run.Experiments.joinLines pending lines, isContinued exp = false := by
  induction lines generalizing pending with
  | nil =>
    obtain rfl := hpending rfl
    exact fun exp hexp => absurd hexp List.not_mem_nil
  | cons line lines ih =>
    have hjoin : Run.Experiments.joinLines pending (line :: lines) =
        if isContinued (pending.getD [] ++ line) then
          Run.Experiments.joinLines (some (Run.Experiments.dropContinuation
            (pending.getD [] ++ line))) lines
        else (pending.getD [] ++ line) :: Run.Experiments.joinLines none lines := by
      cases pending <;> rfl
    have hlast' : ∀ other ∈ lines.getLast?, isContinued other = false ∧
        ∃ c ∈ other, inSpaceClass c = false := by
      intro other hother
      refine hlast other ?_
      rw [List.getLast?_cons, hother]
      rfl
    rw [hjoin]
    split_ifs with hcontinued
    · refine ih _ hlast' fun hnil => ?_
      -- the last line is not continued
      subst hnil
      obtain ⟨hcomplete, hchar⟩ := hlast line rfl
      rw [isContinued_append hchar, hcomplete] at hcontinued
      cases hcontinued
    · refine List.forall_mem_cons.mpr ⟨Bool.not_eq_true _ ▸ hcontinued, ih none hlast' fun _ => rfl⟩

theorem selectExperiments_subset (h : selectExperiments patterns explist changed [] = some pruned) :
    pruned ⊆ explist := by
  have hcompiles := compiles_of_selectExperiments (Option.isSome_iff_exists.mpr ⟨pruned, h⟩)
  rw [selectExperiments_eq hcompiles, List.nil_append] at h
  obtain rfl := Option.some.inj h
  intro exp hexp
  obtain ⟨apm, -, hfind⟩ := List.mem_filterMap.mp hexp
  exact List.mem_of_find?_eq_some hfind

/-- The runs read from the file that the launcher writes the experiments that it has selected, in
their order, if the file they were selected from does not end inside a continued line. -/
theorem readLines_prunedExperiments (package runtype : Text)
    (hlast : ∀ line ∈ lines.getLast?, isContinued line = false ∧
      ∃ c ∈ line, inSpaceClass c = false)
    (h : prunedExperiments patterns lines changed = some pruned) :
    readLines (prunedFile package runtype pruned) = pruned := by
  refine readLines_prunedFile package runtype fun exp hexp => ?_
  obtain ⟨hjoined, hkept⟩ := List.mem_filter.mp (selectExperiments_subset h hexp)
  refine ⟨isContinued_joinLines none lines hlast (fun _ => rfl) exp hjoined, ?_⟩
  simpa using hkept

theorem readLines_continuedExperiment : ∃ pruned, prunedExperiments dottedPatterns
      ["x \\".toList, "config/a.apm y=1".toList] ["config/a.apm".toList] = some pruned ∧
    readLines (prunedFile "core".toList "nightly".toList pruned) = pruned := by
  obtain ⟨pruned, hpruned⟩ : ∃ pruned, prunedExperiments dottedPatterns
      ["x \\".toList, "config/a.apm y=1".toList] ["config/a.apm".toList] = some pruned :=
    Option.isSome_iff_exists.mp (by decide +kernel)
  refine ⟨pruned, hpruned, readLines_prunedExperiments _ _ (fun line hline => ?_) hpruned⟩
  obtain rfl : "config/a.apm y=1".toList = line := Option.some.inj hline
  exact ⟨by decide +kernel, 'c', by decide, by decide⟩

/-! ### Models that match their own experiments only -/

theorem modelOf_inside (exp : Text) : modelOf exp <:+: exp := by
  have hsuffix := (List.dropWhile_suffix (l :=
    (exp.dropWhile inSpaceClass).dropWhile (!inSpaceClass ·)) inSpaceClass).trans
      ((List.dropWhile_suffix (!inSpaceClass ·)).trans (List.dropWhile_suffix inSpaceClass))
  exact (List.takeWhile_prefix _).isInfix.trans hsuffix.isInfix

theorem dotted_translate (h : Dotted apm) : Dotted (translate apm) := by
  refine ⟨fun hnil => h.1 (List.map_eq_nil_iff.mp hnil), fun c hc => ?_⟩
  obtain ⟨d, hd, rfl⟩ := List.mem_map.mp hc
  split
  · exact Or.inl rfl
  · exact h.2 d hd

/-- A model matches its own experiments. -/
theorem hitsModel_modelOf (h : Dotted (modelOf exp)) :
    hitsModel patterns (modelOf exp) exp = true := by
  rw [hitsModel, patterns.compile_dotted _ (dotted_translate h), Option.any_some]
  exact occurs_of_infix (dotted_translate h).2 ((modelOf_inside exp).map _)

/-- If the names of the models are plain and none matches an experiment of another one, the
selection is right exactly if no changed model has two experiments. -/
theorem foundOnce_iff_of_own (hnodup : changed.Nodup) (hdotted : ∀ apm ∈ changed, Dotted apm)
    (hown : ∀ apm ∈ changed, ∀ exp ∈ explist,
      hitsModel patterns apm exp = true → modelOf exp = apm) :
    FoundOnce patterns explist changed ↔
      ∀ apm ∈ changed, explist.countP (fun exp => modelOf exp = apm) ≤ 1 := by
  have hfind : ∀ apm ∈ changed, ∀ exp, explist.find? (hitsModel patterns apm) = some exp →
      exp ∈ explist ∧ modelOf exp = apm := fun apm hapm exp hfind =>
    have hexp := List.mem_of_find?_eq_some hfind
    ⟨hexp, hown apm hapm exp hexp (List.find?_some hfind)⟩
  have hsome : ∀ exp ∈ explist, modelOf exp ∈ changed →
      ∃ first, explist.find? (hitsModel patterns (modelOf exp)) = some first :=
    fun exp hexp hchanged => Option.isSome_iff_exists.mp
      (List.find?_isSome.mpr ⟨exp, hexp, hitsModel_modelOf (hdotted _ hchanged)⟩)
  -- only its own model finds an experiment
  have hcount : ∀ exp, modelOf exp ∈ changed →
      changed.countP (fun apm => explist.find? (hitsModel patterns apm) = some exp) =
        if explist.find? (hitsModel patterns (modelOf exp)) = some exp then 1 else 0 := by
    intro exp hchanged
    split
    next h =>
      rw [← List.count_eq_one_of_mem hnodup hchanged, List.count]
      refine List.countP_congr fun apm hapm => ?_
      rw [decide_eq_true_iff, beq_iff_eq]
      exact ⟨fun h => (hfind apm hapm exp h).2.symm, fun heq => heq ▸ h⟩
    next h =>
      rw [List.countP_eq_zero]
      intro apm hapm hfound
      have hfound := of_decide_eq_true hfound
      exact h ((hfind apm hapm exp hfound).2 ▸ hfound)
  constructor
  · intro h apm hapm
    by_contra hmany
    have hpos : 0 < explist.countP fun exp => modelOf exp = apm := by omega
    obtain ⟨exp, hexp, hmodel⟩ := List.countP_pos_iff.mp hpos
    obtain rfl := of_decide_eq_true hmodel
    obtain ⟨first, hfirst⟩ := hsome exp hexp hapm
    obtain ⟨hmem, hmodel⟩ := hfind _ hapm first hfirst
    have hsame : ∀ other ∈ explist, modelOf other = modelOf exp → other = first := by
      intro other hother heq
      have honce := h.once other hother (decide_eq_true (heq ▸ hapm))
      rw [hcount other (heq ▸ hapm), heq, hfirst] at honce
      have hpos := List.count_pos_iff.mpr hother
      split at honce
      next heq => exact (Option.some.inj heq).symm
      next => omega
    have honce := h.once first hmem (decide_eq_true (hmodel ▸ hapm))
    rw [hcount first (hmodel ▸ hapm), hmodel, if_pos hfirst] at honce
    refine hmany (honce ▸ List.countP_mono_left fun other hother heq => ?_)
    exact beq_iff_eq.mpr (hsame other hother (of_decide_eq_true heq))
  · intro h
    refine ⟨fun _ apm hapm => ?_, fun apm hapm exp hexp => ?_, fun exp hexp hchanged => ?_⟩
    · rw [patterns.compile_dotted _ (dotted_translate (hdotted apm hapm))]
      rfl
    · exact decide_eq_true ((hfind apm hapm exp hexp).2 ▸ hapm)
    · have hmodel := of_decide_eq_true hchanged
      obtain ⟨first, hfirst⟩ := hsome exp hexp hmodel
      obtain ⟨hmem, heq⟩ := hfind _ hmodel first hfirst
      have hone := h _ hmodel
      have hle : explist.count exp ≤ 1 :=
        (List.countP_mono_left fun other _ heq => by simp [beq_iff_eq.mp heq]).trans hone
      have hpos := List.count_pos_iff.mpr hexp
      obtain rfl : first = exp := by
        rw [List.countP_eq_length_filter] at hone
        have hmem : first ∈ explist.filter fun other => modelOf other = modelOf exp :=
          List.mem_filter.mpr ⟨hmem, decide_eq_true heq⟩
        obtain ⟨only, honly⟩ := List.length_eq_one_iff.mp
          (le_antisymm hone (List.length_pos_of_mem hmem))
        have hexp : exp ∈ explist.filter fun other => modelOf other = modelOf exp :=
          List.mem_filter.mpr ⟨hexp, decide_eq_true rfl⟩
        rw [honly, List.mem_singleton] at hmem hexp
        exact hmem.trans hexp.symm
      rw [hcount first hmodel, if_pos hfirst]
      omega

end Awb.Regression.Pruned
