import Awb.Lib.Folds
import Awb.Stats.Extract

/-! What collecting an element means, and that each of the loops of the extraction does it for the
elements it can handle. -/

namespace Awb.Stats

/-- The rows and columns of a parameter are those of a shape. -/
structure Info.HasShape (info : Info) (shape : Shape) : Prop where
  type : info.type = shape.type
  nrows : ∃ nrows, info.nrows = some nrows ∧ number nrows = shape.nrows
  ncols : ∃ ncols, info.ncols = some ncols ∧ number ncols = shape.ncols
  rlabels : info.rlabels = some shape.rlabels
  clabels : info.clabels = some shape.clabels

def Body.info (body : Body) : Info :=
  ⟨"histogram".toList, some body.rows, some body.cols, some (body.data.map Prod.fst),
    some body.columnNames⟩

theorem Body.info_hasShape (body : Body) : body.info.HasShape body.shape :=
  ⟨rfl, ⟨_, rfl, rfl⟩, ⟨_, rfl, rfl⟩, rfl, rfl⟩

def scalarInfo : Info :=
  ⟨"scalar".toList, some ['1'], some ['1'], some [zero], some [zero]⟩

namespace Element

def names : Element → Names
  | scalar e => e.names
  | vector e => e.names
  | histogram e => e.names

/-- What the first look at an element records of it. -/
def info : Element → Option Info
  | scalar _ => some scalarInfo
  | vector e =>
    some ⟨"histogram".toList, some ['1'], some (Nat.toDigits 10 e.values.length), some [zero],
      some (countLabels e.values.length)⟩
  | histogram e => e.body.map Body.info

/-- The elements that the loops can handle: scalars that do not report an error, and histograms
that are empty or have a description and one value for each place. -/
def Extractable : Element → Prop
  | scalar e => isError e.text = false
  | vector _ => False
  | histogram e => ∀ body, e.body = some body → (getNodevalue e.desc).isSome ∧
      ∀ c ∈ body.cells, ∀ c' ∈ body.cells, c.row = c'.row → c.col = c'.col → c.value = c'.value

/-- The values of an element that get into the data, should its loop go on. -/
def written : Element → List Cell
  | scalar e => if isError e.text then [] else (scalar e).cells
  | vector e => (vector e).cells
  | histogram e => (histogram e).cells

theorem path_eq (e : Element) : e.path = e.names.path := by
  cases e <;> rfl

theorem written_of_extractable {e : Element} (h : e.Extractable) : e.written = e.cells := by
  cases e with
  | scalar e => exact if_neg (by simpa [Extractable] using h)
  | vector e => rfl
  | histogram e => rfl

end Element

def step (exp bm : Text) (s : Extracted) : Element → Except Failure Extracted
  | .scalar e => scalarStep exp bm s e
  | .vector e => vectorStep exp bm s e
  | .histogram e => histogramStep exp bm s e

/-- The three loops go over all elements. -/
theorem extractFile_eq (exp bm : Text) (s : Extracted) (file : StatsFile) :
    extractFile exp bm s file = file.elements.foldlM (step exp bm) s := by
  cases file with
  | missing => rfl
  | empty => rfl
  | document d =>
    simp only [extractFile, extractDocument, StatsFile.elements, List.foldlM_append,
      List.foldlM_map, bind_assoc]
    rfl

/-- The places of cells. -/
def places (exp bm path : Text) (cells : List Cell) : List (Place × Text) :=
  cells.map fun c => (⟨exp, bm, path, c.row, c.col⟩, c.value)

@[simp] theorem mem_places {exp bm path : Text} {cells : List Cell} {w : Place × Text} :
    w ∈ places exp bm path cells ↔
      ∃ c ∈ cells, w = (⟨exp, bm, path, c.row, c.col⟩, c.value) := by
  simp [places, eq_comm]

/-- An element collected: its values are in the data, and what it is like is recorded unless it
was before. -/
def Extracted.collect (exp bm : Text) (s : Extracted) (e : Element) : Extracted :=
  let collected : Extracted :=
    { s with data := Data.store.putAll s.data (places exp bm e.path e.cells) }
  match e.info, s.paraminfo e.path with
  | some info, none => collected.include e.names.name e.path info
  | _, _ => collected

section Loops
variable {exp bm : Text} {s s' : Extracted}

theorem Scalar.getNodevalue_texts (e : Scalar) : getNodevalue e.texts = some e.text :=
  (Option.some_get e.carries).symm

theorem addScalar_of_error {data : Data} {e : Scalar} (h : isError e.text = true) :
    addScalar exp bm data e = some (data, none) := by
  simp [addScalar, e.getNodevalue_texts, h]

theorem addScalar_of_value {data : Data} {e : Scalar} (h : isError e.text = false) :
    addScalar exp bm data e
      = some (data.put ⟨exp, bm, e.names.path, zero, zero⟩ (chomp e.text),
          some e.names.path) := by
  simp [addScalar, e.getNodevalue_texts, h, addXpathParam_some]

theorem scalarStep_eq {e : Scalar} (h : isError e.text = false) :
    scalarStep exp bm s e = .ok (s.collect exp bm (.scalar e)) := by
  rw [scalarStep, addScalar_of_value h]
  simp only [orDie, Except.bind, bind, Option.getD_some, Extracted.collect, Element.info,
    Element.path, Element.cells, Element.names]
  cases s.paraminfo e.names.path <;> rfl

theorem scalarStep_data {e : Scalar} (h : scalarStep exp bm s e = .ok s') :
    s'.data = Data.store.putAll s.data
      (places exp bm e.names.path (Element.written (.scalar e))) := by
  cases herror : isError e.text with
  | false =>
    rw [scalarStep_eq herror] at h
    obtain rfl := Except.ok.inj h
    have hwritten : (Element.scalar e).written = (Element.scalar e).cells :=
      Element.written_of_extractable herror
    rw [hwritten, Extracted.collect]
    split <;> rfl
  | true =>
    rw [scalarStep, addScalar_of_error herror] at h
    simp only [orDie, Except.bind, bind] at h
    have hwritten : (Element.scalar e).written = [] := if_pos herror
    rw [hwritten]
    split at h <;> (obtain rfl := Except.ok.inj h; rfl)

theorem vectorStep_ne_ok {e : Vector} : vectorStep exp bm s e ≠ .ok s' := by
  simp [vectorStep, addVector, addXpathParam, orDie, bind, Except.bind]

end Loops

/-- The labels that a row's values are filed under, when they are the names of the columns. -/
def LabelsAre (labels names : List Text) : Prop :=
  ∀ j < names.length, labels.getD j [] = names.getD j []

theorem LabelsAre.refl (names : List Text) : LabelsAre names names := fun _ _ => rfl

theorem labels_all_eq_true {labels names : List Text} :
    (names.zipIdx.all fun (name, colnum) => name = labels.getD colnum []) = true
      ↔ LabelsAre labels names := by
  simp only [List.all_eq_true, decide_eq_true_eq, LabelsAre]
  constructor
  · intro h j hj
    have hmem : (names[j], j) ∈ names.zipIdx := by
      rw [List.mem_zipIdx_iff_getElem?]
      exact List.getElem?_eq_getElem hj
    have hname : names.getD j [] = names[j] := by simp [List.getD_eq_getElem?_getD, hj]
    exact (h _ hmem).symm.trans hname.symm
  · rintro h ⟨name, j⟩ hmem
    have hget : names[j]? = some name := List.mem_zipIdx_iff_getElem?.mp hmem
    have hname : names.getD j [] = name := by simp [List.getD_eq_getElem?_getD, hget]
    have hj : j < names.length := (List.getElem?_eq_some_iff.mp hget).1
    exact ((h j hj).trans hname).symm

section Rows
variable {exp bm path : Text}

theorem addRow_eq {row : Text} {labels names values : List Text} {data : Data}
    (agree : LabelsAre labels names) (fits : values.length ≤ names.length) :
    addRow exp bm path row labels values data
      = Data.store.putAll data (places exp bm path (rowCells row names values)) := by
  have suffix : ∀ (values : List Text) (data : Data) (k : ℕ), k + values.length ≤ names.length →
      (values.zipIdx k).foldl (fun data (value, colnum) =>
          data.put ⟨exp, bm, path, row, labels.getD colnum []⟩ value) data
        = Data.store.putAll data (places exp bm path (rowCells row (names.drop k) values)) := by
    intro values
    induction values with
    | nil => simp [rowCells, places]
    | cons value values ih =>
      intro data k hk
      have hlt : k < names.length := by
        simp only [List.length_cons] at hk
        omega
      have hnext : k + 1 + values.length ≤ names.length := by
        simp only [List.length_cons] at hk
        omega
      have hlabel : labels.getD k [] = names[k] := by
        rw [agree k hlt]
        simp [List.getD_eq_getElem?_getD, hlt]
      rw [List.zipIdx_cons, List.foldl_cons, ih _ _ hnext, List.drop_eq_getElem_cons hlt]
      simp only [hlabel]
      rfl
  have := suffix values data 0 (by omega)
  simpa only [addRow, List.drop_zero] using this

theorem places_append {cells cells' : List Cell} :
    places exp bm path (cells ++ cells') = places exp bm path cells ++ places exp bm path cells' :=
  List.map_append

/-- What the loop over the rows does when it gets through. -/
theorem addRows_data {info : Info} {names labels : List Text} {rows : List (Text × List Text)}
    {k : ℕ} {data data' : Data} (hlabels : info.clabels = some labels)
    (agree : LabelsAre labels names) (fits : ∀ row ∈ rows, row.2.length ≤ names.length)
    (h : addRows exp bm path info k rows data = .ok data') :
    data' = Data.store.putAll data
      (places exp bm path (rows.flatMap fun row => rowCells row.1 names row.2)) := by
  induction rows generalizing k data with
  | nil =>
    obtain rfl := Except.ok.inj h
    rfl
  | cons row rows ih =>
    obtain ⟨name, values⟩ := row
    rw [addRows] at h
    split at h
    next =>
      rw [ih (fun row hrow => fits row (List.mem_cons_of_mem _ hrow)) h, hlabels,
        Option.getD_some, addRow_eq agree (fits _ (List.mem_cons_self ..)), List.flatMap_cons,
        places_append, Store.putAll_append]
    next => cases h

/-- It gets through when the names of the rows are the labels there are, if any. -/
theorem addRows_ok {info : Info} {rows : List (Text × List Text)} {k : ℕ} {data : Data}
    (hlabels : ∀ rlabels, info.rlabels = some rlabels → rlabels.drop k = rows.map Prod.fst) :
    ∃ data', addRows exp bm path info k rows data = .ok data' := by
  induction rows generalizing k data with
  | nil => exact ⟨data, rfl⟩
  | cons row rows ih =>
    obtain ⟨name, values⟩ := row
    have hname : info.rlabels.all (fun rlabels => name = rlabels.getD k []) = true := by
      rw [Option.all_eq_true]
      intro rlabels hsome
      have hdrop := hlabels rlabels hsome
      have hhead := congrArg List.head? hdrop
      rw [List.head?_drop] at hhead
      simp [List.getD_eq_getElem?_getD, hhead]
    have hrest : ∀ rlabels, info.rlabels = some rlabels →
        rlabels.drop (k + 1) = rows.map Prod.fst := by
      intro rlabels hsome
      have htail := congrArg List.tail (hlabels rlabels hsome)
      simpa [List.tail_drop] using htail
    rw [addRows, if_pos hname]
    exact ih hrest

end Rows

namespace Info
variable {info info' : Info} {body : Body}

theorem setLabels_agree {names : List Text} (h : info.setLabels names = .ok info') :
    ∃ labels, info'.clabels = some labels ∧ LabelsAre labels names := by
  rw [setLabels] at h
  simp only at h
  split at h
  next => cases h
  next hall =>
    split at h
    next => cases h
    next =>
      cases h
      exact ⟨_, rfl, labels_all_eq_true.mp (by simpa using hall)⟩

theorem setLabels_ok {names : List Text} (agree : LabelsAre (info.clabels.getD names) names)
    (hcols : number (info.ncols.getD []) = names.length) :
    info.setLabels names = .ok { info with clabels := some (info.clabels.getD names) } := by
  have hall := labels_all_eq_true.mpr agree
  rw [setLabels, if_neg (by rw [hall]; exact Bool.noConfusion), if_neg (not_not.mpr hcols)]

/-- A histogram of the recorded shape passes all comparisons and changes nothing. -/
theorem measure_of_hasShape (h : info.HasShape body.shape) : info.measure body = .ok info := by
  obtain ⟨n, hn, hnrows⟩ := h.nrows
  obtain ⟨m, hm, hncols⟩ := h.ncols
  have hrows : info.setRows body.rows = .ok info := by
    rw [setRows, hn]
    exact if_pos hnrows
  have hcols : info.setCols body.cols = .ok info := by
    rw [setCols, hm]
    exact if_pos hncols
  have hlabels : info.setLabels body.columnNames = .ok info := by
    have hget : info.clabels.getD body.columnNames = body.columnNames := by
      rw [h.clabels]
      rfl
    have hwidth : number (info.ncols.getD []) = body.columnNames.length := by
      rw [hm]
      exact hncols.trans body.shaped
    have hagree : LabelsAre (info.clabels.getD body.columnNames) body.columnNames := by
      rw [hget]
      exact LabelsAre.refl _
    rw [setLabels_ok hagree hwidth, hget]
    exact congrArg (fun clabels => Except.ok { info with clabels }) h.clabels.symm
  exact Except.bind_eq_ok.mpr ⟨info, hrows, Except.bind_eq_ok.mpr ⟨info, hcols, hlabels⟩⟩

/-- The first histogram of a name sets everything but the labels of the rows. -/
theorem measure_of_new {type : Text} :
    (⟨type, none, none, none, none⟩ : Info).measure body
      = .ok ⟨type, some body.rows, some body.cols, none, some body.columnNames⟩ :=
  setLabels_ok (LabelsAre.refl _) body.shaped

theorem measure_agree (h : info.measure body = .ok info') :
    ∃ labels, info'.clabels = some labels ∧ LabelsAre labels body.columnNames := by
  obtain ⟨_, _, h⟩ := Except.bind_eq_ok.mp h
  obtain ⟨_, _, h⟩ := Except.bind_eq_ok.mp h
  exact setLabels_agree h

end Info

section Histograms
variable {exp bm : Text} {s s' : Extracted} {e : Histogram} {body : Body}

theorem histogramStep_empty (h : e.body = none) : histogramStep exp bm s e = .ok s := by
  rw [histogramStep, addXpathParam_some, h]
  rfl

theorem histogramStep_body (h : e.body = some body) :
    histogramStep exp bm s e = (orDie (getNodevalue e.desc)).bind fun _ =>
      ((s.seeHistogram e.names.name e.names.path).2.measure body).bind fun info =>
        (addRows exp bm e.names.path info 0 body.data s.data).bind fun data =>
          .ok { (s.seeHistogram e.names.name e.names.path).1 with
            data
            paraminfo := Function.update
              (s.seeHistogram e.names.name e.names.path).1.paraminfo e.names.path
              (some { info with
                rlabels := some (info.rlabels.getD (body.data.map Prod.fst)) }) } := by
  have hdata : (s.seeHistogram e.names.name e.names.path).1.data = s.data := by
    rw [Extracted.seeHistogram]
    split <;> rfl
  rw [histogramStep, addXpathParam_some, h, ← hdata]
  rfl

theorem desc_of_histogramStep (h : e.body = some body)
    (hok : histogramStep exp bm s e = .ok s') : (getNodevalue e.desc).isSome := by
  rw [histogramStep_body h] at hok
  obtain ⟨desc, hdesc, -⟩ := Except.bind_eq_ok.mp hok
  cases hget : getNodevalue e.desc with
  | none => simp [hget, orDie] at hdesc
  | some desc => rfl

theorem histogramStep_data (hok : histogramStep exp bm s e = .ok s') :
    s'.data = Data.store.putAll s.data
      (places exp bm e.names.path (Element.written (.histogram e))) := by
  cases hbody : e.body with
  | none =>
    obtain rfl := Except.ok.inj ((histogramStep_empty hbody).symm.trans hok)
    have hwritten : Element.written (.histogram e) = [] := by
      simp [Element.written, Element.cells, hbody]
    rw [hwritten]
    rfl
  | some body =>
    rw [histogramStep_body hbody] at hok
    obtain ⟨_, _, hok⟩ := Except.bind_eq_ok.mp hok
    obtain ⟨info, hinfo, hok⟩ := Except.bind_eq_ok.mp hok
    obtain ⟨data, hdata, hok⟩ := Except.bind_eq_ok.mp hok
    obtain ⟨labels, hlabels, agree⟩ := Info.measure_agree hinfo
    have hwritten : Element.written (.histogram e) = body.cells := by
      simp [Element.written, Element.cells, hbody]
    obtain rfl := Except.ok.inj hok
    rw [hwritten]
    exact addRows_data hlabels agree body.fits hdata

/-- A histogram with a description whose size and labels fit gets through. -/
theorem histogramStep_of_measure {info : Info} (h : e.body = some body)
    (hdesc : (getNodevalue e.desc).isSome)
    (hmeasure : (s.seeHistogram e.names.name e.names.path).2.measure body = .ok info)
    (hclabels : info.clabels = some body.columnNames)
    (hrlabels : ∀ rlabels, info.rlabels = some rlabels → rlabels = body.data.map Prod.fst) :
    histogramStep exp bm s e = .ok { (s.seeHistogram e.names.name e.names.path).1 with
      data := Data.store.putAll s.data (places exp bm e.names.path body.cells)
      paraminfo := Function.update (s.seeHistogram e.names.name e.names.path).1.paraminfo
        e.names.path (some { info with rlabels := some (body.data.map Prod.fst) }) } := by
  obtain ⟨desc, hget⟩ := Option.isSome_iff_exists.mp hdesc
  have hthrough : ∀ rlabels, info.rlabels = some rlabels →
      rlabels.drop 0 = body.data.map Prod.fst := fun rlabels hsome => hrlabels rlabels hsome
  obtain ⟨data, hdata⟩ : ∃ data, addRows exp bm e.names.path info 0 body.data s.data = .ok data :=
    addRows_ok hthrough
  have hput := addRows_data hclabels (LabelsAre.refl _) body.fits hdata
  have hlabels : info.rlabels.getD (body.data.map Prod.fst) = body.data.map Prod.fst := by
    cases hsome : info.rlabels with
    | none => rfl
    | some rlabels => exact hrlabels rlabels hsome
  rw [histogramStep_body h, hget]
  refine Except.bind_eq_ok.mpr ⟨desc, rfl, Except.bind_eq_ok.mpr ⟨info, hmeasure,
    Except.bind_eq_ok.mpr ⟨data, hdata, ?_⟩⟩⟩
  rw [hlabels, hput]
  rfl

/-- A histogram with a description is collected if it has the shape that is recorded, if any. -/
theorem histogramStep_eq (h : e.body = some body) (hdesc : (getNodevalue e.desc).isSome)
    (hshape : ∀ info, s.paraminfo e.names.path = some info → info.HasShape body.shape) :
    histogramStep exp bm s e = .ok (s.collect exp bm (.histogram e)) := by
  have hcells : (Element.histogram e).cells = body.cells := by simp [Element.cells, h]
  have hfirst : (Element.histogram e).info = some body.info := by simp [Element.info, h]
  cases hinfo : s.paraminfo e.names.path with
  | none =>
    have hsee : s.seeHistogram e.names.name e.names.path
        = (s.include e.names.name e.names.path ⟨"histogram".toList, none, none, none, none⟩,
            ⟨"histogram".toList, none, none, none, none⟩) := by
      rw [Extracted.seeHistogram, hinfo]
    have hmeasure : (⟨"histogram".toList, none, none, none, none⟩ : Info).measure body = _ :=
      Info.measure_of_new
    rw [histogramStep_of_measure h hdesc (by rw [hsee]; exact hmeasure) rfl
      (fun _ hsome => by cases hsome), hsee, Extracted.collect, hfirst, hcells]
    simp only [Element.path, Element.names, hinfo, Extracted.include, Function.update_idem]
    rfl
  | some info =>
    have hsee : s.seeHistogram e.names.name e.names.path = (s, info) := by
      rw [Extracted.seeHistogram, hinfo]
    have hhas := hshape info hinfo
    have hsame : ({ info with rlabels := some (body.data.map Prod.fst) } : Info) = info :=
      congrArg (fun rlabels => { info with rlabels }) hhas.rlabels.symm
    have hupdate : Function.update s.paraminfo e.names.path (some info) = s.paraminfo := by
      rw [← hinfo, Function.update_eq_self]
    rw [histogramStep_of_measure h hdesc (by rw [hsee]; exact Info.measure_of_hasShape hhas)
      hhas.clabels (fun _ hsome => Option.some.inj (hsome.symm.trans hhas.rlabels)), hsee,
      Extracted.collect, hfirst, hcells, hsame]
    simp only [Element.path, hinfo, hupdate]

end Histograms

section Steps
variable {exp bm : Text} {s s' : Extracted} {e : Element}

/-- A loop collects an element it can handle, if it has the shape that is recorded, if any. -/
theorem step_eq (h : e.Extractable)
    (hshape : ∀ info shape, s.paraminfo e.path = some info → e.shape = some shape →
      info.HasShape shape) :
    step exp bm s e = .ok (s.collect exp bm e) := by
  cases e with
  | scalar e => exact scalarStep_eq h
  | vector e => exact absurd h id
  | histogram e =>
    cases hbody : e.body with
    | none =>
      have hsame : s.collect exp bm (.histogram e) = s := by
        simp [Extracted.collect, Element.info, Element.cells, hbody, places]
      rw [hsame]
      exact histogramStep_empty hbody
    | some body =>
      have hbodyShape : (Element.histogram e).shape = some body.shape := by
        simp [Element.shape, hbody]
      exact histogramStep_eq hbody (h body hbody).1 fun info hinfo =>
        hshape info _ hinfo hbodyShape

/-- What gets into the data, whatever was recorded before. -/
theorem step_data (h : step exp bm s e = .ok s') :
    s'.data = Data.store.putAll s.data (places exp bm e.path e.written) := by
  cases e with
  | scalar e => exact scalarStep_data h
  | vector e => exact absurd h vectorStep_ne_ok
  | histogram e => exact histogramStep_data h

end Steps
end Awb.Stats
