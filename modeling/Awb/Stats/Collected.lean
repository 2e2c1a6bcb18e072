import Awb.Stats.Collect

/-! Which documents `_extract_data` collects completely. -/

namespace Awb.Stats

/-- An element, and the experiment and benchmark whose document it is in. -/
structure Item where
  exp : Text
  bm : Text
  elem : Element

namespace Item

def step (s : Extracted) (i : Item) : Except Failure Extracted := Stats.step i.exp i.bm s i.elem

def collect (s : Extracted) (i : Item) : Extracted := s.collect i.exp i.bm i.elem

def writes (i : Item) : List (Place × Text) := places i.exp i.bm i.elem.path i.elem.cells

end Item

theorem Element.info_hasShape {e : Element} {info : Info} (h : e.Extractable)
    (hinfo : e.info = some info) : ∃ shape, e.shape = some shape ∧ info.HasShape shape := by
  cases e with
  | scalar e =>
    obtain rfl := Option.some.inj hinfo
    have hone : number ['1'] = 1 := by
      simp [number, signed, leadingDigits, natOfDigits, isSpace]
    exact ⟨_, rfl, rfl, ⟨_, rfl, hone⟩, ⟨_, rfl, hone⟩, rfl, rfl⟩
  | vector e => exact absurd h id
  | histogram e =>
    obtain ⟨body, hbody, rfl⟩ := Option.map_eq_some_iff.mp hinfo
    exact ⟨body.shape, by simp [Element.shape, hbody], body.info_hasShape⟩

theorem Element.info_of_shape {e : Element} {shape : Shape} (h : e.shape = some shape) :
    e.info.isSome := by
  cases e with
  | scalar e => rfl
  | vector e => rfl
  | histogram e =>
    obtain ⟨body, hbody, -⟩ := Option.map_eq_some_iff.mp h
    simp [Element.info, hbody]

/-- The parameters are the paths that something is recorded of, each once, and what is recorded is
what the first look at one of the items found. -/
structure Recorded (items : List Item) (s : Extracted) : Prop where
  nodup : s.params.Nodup
  mem_params : ∀ path, path ∈ s.params ↔ (s.paraminfo path).isSome
  found : ∀ path info, s.paraminfo path = some info →
    ∃ i ∈ items, i.elem.path = path ∧ i.elem.info = some info

section Run
variable {items : List Item} {s : Extracted} {i : Item}

theorem Recorded.clear : Recorded items Extracted.clear where
  nodup := List.nodup_nil
  mem_params _ := by simp [Extracted.clear]
  found _ _ h := by cases h

theorem collect_data : (i.collect s).data = Data.store.putAll s.data i.writes := by
  rw [Item.collect, Extracted.collect]
  split <;> rfl

/-- Either nothing is recorded, or the first look at a path. -/
theorem collect_records :
    ((i.collect s).paraminfo = s.paraminfo ∧ (i.collect s).params = s.params ∧
        (i.elem.info = none ∨ (s.paraminfo i.elem.path).isSome)) ∨
      ∃ info, i.elem.info = some info ∧ s.paraminfo i.elem.path = none ∧
        (i.collect s).paraminfo = Function.update s.paraminfo i.elem.path (some info) ∧
        (i.collect s).params = s.params ++ [i.elem.path] := by
  rw [Item.collect, Extracted.collect]
  cases hinfo : i.elem.info with
  | none => exact Or.inl ⟨rfl, rfl, Or.inl rfl⟩
  | some info =>
    cases hrecord : s.paraminfo i.elem.path with
    | none => exact Or.inr ⟨info, rfl, rfl, rfl, rfl⟩
    | some old => exact Or.inl ⟨rfl, rfl, Or.inr rfl⟩

theorem Recorded.collect (h : Recorded items s) (hi : i ∈ items) :
    Recorded items (i.collect s) := by
  rcases collect_records (s := s) (i := i) with
    ⟨hinfo, hparams, -⟩ | ⟨info, hi', hnone, hinfo, hparams⟩
  · exact ⟨by rw [hparams]; exact h.nodup, by rw [hparams, hinfo]; exact h.mem_params,
      by rw [hinfo]; exact h.found⟩
  · refine ⟨?_, ?_, ?_⟩
    · rw [hparams]
      have hfresh : i.elem.path ∉ s.params := by simp [h.mem_params, hnone]
      exact h.nodup.append (List.nodup_singleton _) (by simpa using hfresh)
    · intro path
      rw [hparams, hinfo, List.mem_append, h.mem_params, List.mem_singleton, Function.update_apply]
      split
      next heq => simp [heq]
      next hne => simp [hne]
    · intro path info' hrecord
      rw [hinfo, Function.update_apply] at hrecord
      split at hrecord
      next heq => exact ⟨i, hi, heq.symm, hi'.trans hrecord⟩
      next => exact h.found path info' hrecord

theorem collect_keeps {path : Text} (h : (s.paraminfo path).isSome) :
    ((i.collect s).paraminfo path).isSome := by
  rcases collect_records (s := s) (i := i) with ⟨hinfo, -, -⟩ | ⟨info, -, -, hinfo, -⟩
  · rw [hinfo]
    exact h
  · rw [hinfo, Function.update_apply]
    split
    next => rfl
    next => exact h

theorem collect_isSome (h : i.elem.info.isSome) :
    ((i.collect s).paraminfo i.elem.path).isSome := by
  rcases collect_records (s := s) (i := i) with ⟨hinfo, -, hnone | hsome⟩ | ⟨info, -, -, hinfo, -⟩
  · simp [hnone] at h
  · rw [hinfo]
    exact hsome
  · simp [hinfo]

theorem collectAll_data : (items.foldl Item.collect s).data
    = Data.store.putAll s.data (items.flatMap Item.writes) := by
  induction items generalizing s with
  | nil => rfl
  | cons i items ih =>
    rw [List.foldl_cons, ih, collect_data, List.flatMap_cons, Store.putAll_append]

theorem collectAll_keeps {path : Text} (h : (s.paraminfo path).isSome) :
    ((items.foldl Item.collect s).paraminfo path).isSome := by
  induction items generalizing s with
  | nil => exact h
  | cons i items ih => exact ih (collect_keeps h)

theorem collectAll_isSome (hi : i ∈ items) (h : i.elem.info.isSome) :
    ((items.foldl Item.collect s).paraminfo i.elem.path).isSome := by
  induction items generalizing s with
  | nil => cases hi
  | cons j items ih =>
    rcases List.mem_cons.mp hi with rfl | hi
    · rw [List.foldl_cons]
      exact collectAll_keeps (collect_isSome h)
    · exact ih hi

/-- Items of one path have one shape. -/
def SameShapes (items : List Item) : Prop :=
  ∀ i ∈ items, ∀ j ∈ items, i.elem.path = j.elem.path → ∀ shape shape',
    i.elem.shape = some shape → j.elem.shape = some shape' → shape = shape'

theorem SameShapes.of_singleton (h : items = [i]) : SameShapes items := by
  subst h
  intro j hj k hk _ shape shape' hshape hshape'
  rw [List.mem_singleton.mp hj] at hshape
  rw [List.mem_singleton.mp hk] at hshape'
  exact Option.some.inj (hshape.symm.trans hshape')

/-- What is recorded has the shape of every item of its path. -/
theorem Recorded.hasShape (h : Recorded items s) (same : SameShapes items)
    (hext : ∀ i ∈ items, i.elem.Extractable) (hi : i ∈ items) {info : Info} {shape : Shape}
    (hinfo : s.paraminfo i.elem.path = some info) (hshape : i.elem.shape = some shape) :
    info.HasShape shape := by
  obtain ⟨j, hj, hpath, hjinfo⟩ := h.found _ _ hinfo
  obtain ⟨shape', hshape', hhas⟩ := Element.info_hasShape (hext j hj) hjinfo
  obtain rfl := same j hj i hi hpath _ _ hshape' hshape
  exact hhas

/-- Extractable items of consistent shapes are all collected. -/
theorem run_eq {l : List Item} (same : SameShapes items)
    (hext : ∀ i ∈ items, i.elem.Extractable) (hl : ∀ i ∈ l, i ∈ items) (h : Recorded items s) :
    l.foldlM Item.step s = .ok (l.foldl Item.collect s) ∧
      Recorded items (l.foldl Item.collect s) := by
  induction l generalizing s with
  | nil => exact ⟨rfl, h⟩
  | cons i l ih =>
    have hi := hl i (List.mem_cons_self ..)
    have hstep : i.step s = .ok (i.collect s) :=
      step_eq (hext i hi) fun info shape => h.hasShape same hext hi
    have hrest := ih (fun j hj => hl j (List.mem_cons_of_mem i hj)) (h.collect hi)
    rw [List.foldlM_cons, hstep]
    exact hrest

/-- What a run that gets through has written, and that each of its steps got through. -/
theorem run_data {s' : Extracted} (h : items.foldlM Item.step s = .ok s') :
    s'.data = Data.store.putAll s.data
        (items.flatMap fun i => places i.exp i.bm i.elem.path i.elem.written) ∧
      ∀ i ∈ items, ∃ t t', i.step t = .ok t' := by
  induction items generalizing s with
  | nil =>
    obtain rfl := Except.ok.inj h
    exact ⟨rfl, by simp⟩
  | cons i items ih =>
    rw [List.foldlM_cons] at h
    obtain ⟨t, hstep, hrest⟩ := Except.bind_eq_ok.mp h
    obtain ⟨hdata, hsteps⟩ := ih hrest
    refine ⟨?_, ?_⟩
    · rw [hdata, step_data hstep, List.flatMap_cons, Store.putAll_append]
    · rintro j hj
      rcases List.mem_cons.mp hj with rfl | hj
      · exact ⟨s, t, hstep⟩
      · exact hsteps j hj

end Run

/-- An element is collected: its values are in the data, its path is once among the parameters, and
its shape is recorded. -/
def CollectsElement (s : Extracted) (exp bm : Text) (e : Element) : Prop :=
  (∀ c ∈ e.cells, s.data.read ⟨exp, bm, e.path, c.row, c.col⟩ = some c.value) ∧
  ∀ shape, e.shape = some shape → s.params.count e.path = 1 ∧
    ∃ info, s.paraminfo e.path = some info ∧ info.HasShape shape

namespace Extraction
variable {run : Extraction}

/-- The stats file of an experiment and a benchmark. -/
def file (run : Extraction) (exp bm : Text) : StatsFile :=
  let expanded := run.expandTilda exp
  run.stats (run.fileName (if isAbsolutePath expanded then [] else run.basedir) expanded bm)

def elements (run : Extraction) (exp bm : Text) : List Element := (run.file exp bm).elements

def items (run : Extraction) : List Item :=
  run.experiments.flatMap fun exp => run.benchmarks.flatMap fun bm =>
    (run.elements exp bm).map fun elem => ⟨exp, bm, elem⟩

theorem mem_items {i : Item} : i ∈ run.items ↔
    i.exp ∈ run.experiments ∧ i.bm ∈ run.benchmarks ∧ i.elem ∈ run.elements i.exp i.bm := by
  obtain ⟨exp, bm, elem⟩ := i
  simp only [items, List.mem_flatMap, List.mem_map]
  constructor
  · rintro ⟨exp', hexp, bm', hbm, elem', helem, heq⟩
    cases heq
    exact ⟨hexp, hbm, helem⟩
  · rintro ⟨hexp, hbm, helem⟩
    exact ⟨exp, hexp, bm, hbm, elem, helem, rfl⟩

/-- The names do not change the loops over them: no benchmark has blanks to strip, and no relative
experiment comes after an absolute one. -/
structure PlainNames (run : Extraction) : Prop where
  benchmarks : ∀ bm ∈ run.benchmarks, stripBlanks bm = bm
  experiments : run.experiments.Pairwise fun exp exp' =>
    isAbsolutePath (run.expandTilda exp) = true → isAbsolutePath (run.expandTilda exp') = true

/-- Each element has a path of its own in its document, and one shape in all documents. -/
structure Consistent (run : Extraction) : Prop where
  distinct : ∀ exp ∈ run.experiments, ∀ bm ∈ run.benchmarks,
    ((run.elements exp bm).map Element.path).Nodup
  same : SameShapes run.items

/-- The extraction gets through and collects every element of every document. -/
def Collects (run : Extraction) : Prop :=
  ∃ s, run.extractData = .ok s ∧ ∀ exp ∈ run.experiments, ∀ bm ∈ run.benchmarks,
    ∀ e ∈ run.elements exp bm, CollectsElement s exp bm e

theorem reads_eq {benchmarks experiments : List Text} {dir : Text}
    (hbench : benchmarks.map stripBlanks = benchmarks)
    (hexp : experiments.Pairwise fun exp exp' =>
      isAbsolutePath (run.expandTilda exp) = true → isAbsolutePath (run.expandTilda exp') = true)
    (hdir : dir = run.basedir ∨
      ∀ exp ∈ experiments, isAbsolutePath (run.expandTilda exp) = true) :
    run.reads dir benchmarks experiments = experiments.flatMap fun exp =>
      benchmarks.map fun bm => (exp, bm, run.fileName
        (if isAbsolutePath (run.expandTilda exp) then [] else run.basedir)
        (run.expandTilda exp) bm) := by
  induction experiments generalizing dir with
  | nil => rfl
  | cons exp experiments ih =>
    obtain ⟨hhead, hrest⟩ := List.pairwise_cons.mp hexp
    simp only [reads, hbench, List.flatMap_cons]
    cases habs : isAbsolutePath (run.expandTilda exp) with
    | true =>
      simp only [if_true]
      rw [ih hrest (Or.inr fun exp' hexp' => hhead exp' hexp' habs)]
    | false =>
      have hbase : dir = run.basedir := by
        rcases hdir with hdir | hall
        · exact hdir
        · simp [hall exp (List.mem_cons_self ..)] at habs
      simp only [Bool.false_eq_true, if_false]
      rw [ih hrest (Or.inl hbase), hbase]

/-- With plain names the extraction is one loop over all elements. -/
theorem extractData_eq (plain : run.PlainNames) :
    run.extractData = run.items.foldlM Item.step Extracted.clear := by
  have hbench : run.benchmarks.map stripBlanks = run.benchmarks :=
    (List.map_congr_left plain.benchmarks).trans (List.map_id' _)
  rw [extractData, reads_eq hbench plain.experiments (Or.inl rfl), items]
  simp only [List.foldlM_flatMap, List.foldlM_map, extractFile_eq]
  rfl

/-- Two items of one path in one document are the same. -/
theorem Consistent.elem_eq (consistent : run.Consistent) {i j : Item} (hi : i ∈ run.items)
    (hj : j ∈ run.items) (hexp : j.exp = i.exp) (hbm : j.bm = i.bm)
    (hpath : j.elem.path = i.elem.path) : j.elem = i.elem := by
  obtain ⟨hiexp, hibm, hielem⟩ := mem_items.mp hi
  obtain ⟨-, -, hjelem⟩ := mem_items.mp hj
  rw [hexp, hbm] at hjelem
  exact List.inj_on_of_nodup_map (consistent.distinct _ hiexp _ hibm) hjelem hielem hpath

/-- Only an item itself writes to its places. -/
theorem Consistent.owner (consistent : run.Consistent) (kept : Element → List Cell) {i : Item}
    (hi : i ∈ run.items) {w : Place × Text} {c : Cell}
    (hw : w ∈ run.items.flatMap fun j => places j.exp j.bm j.elem.path (kept j.elem))
    (hplace : w.1 = ⟨i.exp, i.bm, i.elem.path, c.row, c.col⟩) :
    ∃ c' ∈ kept i.elem, c'.row = c.row ∧ c'.col = c.col ∧ w.2 = c'.value := by
  obtain ⟨j, hj, hw⟩ := List.mem_flatMap.mp hw
  obtain ⟨c', hc', rfl⟩ := mem_places.mp hw
  simp only [Place.mk.injEq] at hplace
  obtain ⟨hexp, hbm, hpath, hrow, hcol⟩ := hplace
  rw [consistent.elem_eq hi hj hexp hbm hpath] at hc'
  exact ⟨c', hc', hrow, hcol, rfl⟩

theorem Element.cells_functional {e : Element} (h : e.Extractable) {c c' : Cell}
    (hc : c ∈ e.cells) (hc' : c' ∈ e.cells) (hrow : c.row = c'.row) (hcol : c.col = c'.col) :
    c.value = c'.value := by
  cases e with
  | scalar e =>
    rw [List.mem_singleton.mp hc, List.mem_singleton.mp hc']
  | vector e => exact absurd h id
  | histogram e =>
    cases hbody : e.body with
    | none => simp [Element.cells, hbody] at hc
    | some body =>
      simp only [Element.cells, hbody, Option.map_some, Option.getD_some] at hc hc'
      exact (h body hbody).2 c hc c' hc' hrow hcol

theorem collects_of_extractable (plain : run.PlainNames) (consistent : run.Consistent)
    (hext : ∀ i ∈ run.items, i.elem.Extractable) : run.Collects := by
  obtain ⟨hrun, hrecorded⟩ := run_eq consistent.same hext (fun i hi => hi) Recorded.clear
  refine ⟨_, (extractData_eq plain).trans hrun, ?_⟩
  intro exp hexp bm hbm e he
  have hi : (⟨exp, bm, e⟩ : Item) ∈ run.items := mem_items.mpr ⟨hexp, hbm, he⟩
  constructor
  · intro c hc
    rw [collectAll_data]
    refine Data.store.read_putAll_of_mem ?_ ?_
    · exact List.mem_flatMap.mpr ⟨_, hi, mem_places.mpr ⟨c, hc, rfl⟩⟩
    · intro w hw hplace
      obtain ⟨c', hc', hrow, hcol, hvalue⟩ :=
        consistent.owner Element.cells hi hw hplace
      exact hvalue.trans (Element.cells_functional (hext _ hi) hc' hc hrow hcol)
  · intro shape hshape
    have hsome := collectAll_isSome (s := Extracted.clear) hi (Element.info_of_shape hshape)
    obtain ⟨info, hinfo⟩ := Option.isSome_iff_exists.mp hsome
    exact ⟨List.count_eq_one_of_mem hrecorded.nodup ((hrecorded.mem_params _).mpr hsome),
      info, hinfo, hrecorded.hasShape consistent.same hext hi hinfo hshape⟩

theorem extractable_of_collects (plain : run.PlainNames) (consistent : run.Consistent)
    (h : run.Collects) {i : Item} (hi : i ∈ run.items) : i.elem.Extractable := by
  obtain ⟨s, hrun, hall⟩ := h
  obtain ⟨hdata, hsteps⟩ := run_data ((extractData_eq plain).symm.trans hrun)
  obtain ⟨hexp, hbm, helem⟩ := mem_items.mp hi
  obtain ⟨hcells, -⟩ := hall _ hexp _ hbm _ helem
  obtain ⟨t, t', hstep⟩ := hsteps i hi
  have hwritten : ∀ c ∈ i.elem.cells, ∃ c' ∈ i.elem.written, c'.row = c.row ∧ c'.col = c.col ∧
      c.value = c'.value := by
    intro c hc
    have hread := hcells c hc
    rw [hdata] at hread
    rcases Data.store.mem_of_read_putAll hread with hclear | hw
    · cases hclear
    · exact consistent.owner Element.written hi hw rfl
  obtain ⟨exp, bm, e⟩ := i
  cases e with
  | scalar e =>
    by_contra herror
    have htrue : isError e.text = true := by simpa [Element.Extractable] using herror
    obtain ⟨c', hc', -⟩ := hwritten _ (List.mem_singleton_self _)
    simp [Element.written, htrue] at hc'
  | vector e => exact absurd hstep vectorStep_ne_ok
  | histogram e =>
    intro body hbody
    have hbodyCells : (Element.histogram e).cells = body.cells := by simp [Element.cells, hbody]
    refine ⟨desc_of_histogramStep hbody hstep, ?_⟩
    intro c hc c' hc' hrow hcol
    have hread := hcells c (hbodyCells ▸ hc)
    have hread' := hcells c' (hbodyCells ▸ hc')
    rw [hrow, hcol] at hread
    exact Option.some.inj (hread.symm.trans hread')

/-- One experiment with one benchmark, whose document holds one scalar. -/
def scalarRun : Extraction where
  basedir := ['d']
  batch := true
  experiments := [['e']]
  benchmarks := [['b']]
  expandTilda := id
  stats _ := .document ⟨[⟨⟨[['t']], ['n']⟩, [['7']], rfl⟩], [], []⟩

/-- The same with one vector instead. -/
def vectorRun : Extraction :=
  { scalarRun with stats := fun _ => .document ⟨[], [⟨⟨[['t']], ['n']⟩, [['7']]⟩], []⟩ }

end Extraction
end Awb.Stats
