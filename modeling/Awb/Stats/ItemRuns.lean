import Awb.Stats.Items

/-! What the handler makes of each element of a document, by induction on the document. -/

namespace Awb.Stats.ToText

namespace State
variable (s : State)

@[simp] theorem run_nil : s.run [] = s := rfl

@[simp] theorem run_cons (e : Event) (l : List Event) : s.run (e :: l) = (s.step e).run l := rfl

@[simp] theorem run_append (l l' : List Event) : s.run (l ++ l') = (s.run l).run l' :=
  List.foldl_append

/-- A text is read into the contents of a new element. -/
theorem saveContents_characters (text : Text) :
    s.saveContents.characters text = { s.saveContents with contents := kept text } := by
  rw [characters, kept]
  split
  · rfl
  · rfl

theorem run_field {tag : String} {text : Text} (hitem : isItem tag = false)
    (hvalue : tag ≠ "value") :
    s.run [.startElement tag, .characters text, .endElement tag]
      = { s with properties := Function.update s.properties tag (some (kept text)) } := by
  have hscalar : tag ≠ "scalar" := by
    rintro rfl
    cases hitem
  have hvector : tag ≠ "vector" := by
    rintro rfl
    cases hitem
  have hcompound : tag ≠ "compound" := by
    rintro rfl
    cases hitem
  simp only [run_cons, run_nil, step, startElement, hitem, hcompound, if_false,
    Bool.false_eq_true, saveContents_characters, endElement, hscalar, hvector, hvalue,
    Bool.false_and]
  rfl

theorem run_header (h : Header) :
    s.run h.events = { s with properties := h.onto s.properties } := by
  obtain ⟨fields, plain⟩ := h
  have hfold : ∀ (l : List (String × Text)) (s : State),
      (∀ f ∈ l, isItem f.1 = false ∧ f.1 ≠ "value") →
      s.run (l.flatMap fun f => [.startElement f.1, .characters f.2, .endElement f.1])
        = { s with properties :=
              l.foldl (fun f kv => Function.update f kv.1 (some (kept kv.2))) s.properties } := by
    intro l
    induction l with
    | nil => exact fun _ _ => rfl
    | cons f l ih =>
      intro s hl
      obtain ⟨hf, hrest⟩ := List.forall_mem_cons.mp hl
      rw [List.flatMap_cons, run_append, run_field s hf.1 hf.2, ih _ hrest]
      rfl
  rw [Header.events, hfold fields s plain, foldl_update]
  rfl

theorem run_values (values : List Text) :
    s.run (valueEvents values) = { s with vector := s.vector ++ values.map kept } := by
  induction values generalizing s with
  | nil => simp [valueEvents]
  | cons value values ih =>
    have hstart : s.startElement "value" = s.saveContents := rfl
    have hvalue : s.run [.startElement "value", .characters value, .endElement "value"]
        = { s with vector := s.vector ++ [kept value] } := by
      rw [run_cons, step, hstart, run_cons, step, saveContents_characters]
      rfl
    rw [valueEvents, List.flatMap_cons, run_append, hvalue]
    refine (ih _).trans ?_
    simp

variable {s} {h : Header} {d : Option Text}

/-- A scalar up to its end. -/
theorem run_scalarEvents (s : State) (h : Header) (value : Text) :
    s.run (scalarEvents h value) = ({ s.opened with
      properties := h.onto s.opened.properties
      contents := kept value
      charStack := s.opened.contents :: s.opened.charStack } : State).endElement "scalar" := by
  have hstart : s.startElement "scalar" = s.opened.saveContents := rfl
  have htext := saveContents_characters { s.opened with properties := h.onto s.opened.properties }
    value
  rw [scalarEvents, List.cons_append, run_cons, step, hstart, run_append, run_header, run_cons,
    step]
  exact congrArg (fun s : State => s.endElement "scalar") htext

/-- A vector up to its end. -/
theorem run_vectorEvents (s : State) (h : Header) (values : List Text) :
    s.run (vectorEvents h values) = ({ s.opened with
      properties := h.onto s.opened.properties
      vector := s.opened.vector ++ values.map kept
      contents := []
      charStack := s.opened.contents :: s.opened.charStack } : State).endElement "vector" := by
  have hstart : s.startElement "vector" = s.opened.saveContents := rfl
  rw [vectorEvents, List.cons_append, List.cons_append, run_cons, step, hstart, run_append,
    run_append, run_header, run_values]
  rfl

/-- The state in which the contents of a compound start. -/
def inner (s : State) (h : Header) : State :=
  { s.opened with
    properties := h.onto s.opened.properties
    contents := []
    charStack := s.opened.contents :: s.opened.charStack
    headerPrinted := false }

theorem run_compoundEvents (s : State) (h : Header) (content : List Event) :
    s.run (compoundEvents h content) = ((s.inner h).run content).endElement "compound" := by
  have hstart : s.startElement "compound" = { s.opened.saveContents with headerPrinted := false } :=
    rfl
  rw [compoundEvents, List.cons_append, List.cons_append, run_cons, step, hstart, run_append,
    run_append, run_header]
  rfl

/-- The properties in which only a name is there. -/
def onlyName (name : Option Text) : String → Option Text :=
  Function.update (fun _ => none) "name" name

theorem handleHeader_of_type (hs : s.properties "type" = none) : s.handleHeader = s := by
  simp [handleHeader, hs, truthy]

theorem opened_bare (hs : s.properties = fun _ => none) : s.opened = s := by
  rw [opened, handleHeader_of_type (by rw [hs])]
  simp [hs]

/-- Between two elements of a compound. -/
theorem opened_between {name : Text} (hs : s.properties = onlyName (some name))
    (hname : truthy (some name) = true) (hhist : s.inHistogram = 0) :
    s.opened = { s with nameStack := name :: s.nameStack, properties := fun _ => none } := by
  have htype : s.properties "type" = none := by
    rw [hs]
    rfl
  have hself : s.properties "name" = some name := by
    rw [hs]
    rfl
  have hnone : Function.update s.properties "name" none = fun _ => none := by
    rw [hs, onlyName, Function.update_idem, Function.update_eq_self_iff]
  rw [opened, handleHeader_of_type htype]
  simp [hself, hname, hhist, hnone]

/-- The state after an element outside of histograms, which is as before but for these. -/
def closed (s : State) (headerPrinted : Bool) (histogram : Hash)
    (lines : List (Print × List Text)) : State :=
  { s with
    properties := onlyName s.nameStack.head?
    nameStack := s.nameStack.tail
    headerPrinted, histogram
    out := s.out ++ lines }

theorem run_scalar (hs : s.opened.inHistogram = 0) (value : Text)
    (hvalid : (Item.scalar h value).Valid) :
    s.run (scalarEvents h value) = s.opened.closed s.opened.headerPrinted s.opened.histogram
      ((Item.scalar h value).printed (s.opened.properties "desc") s.opened.nameStack
        s.opened.histogram) := by
  obtain ⟨type, htype⟩ := Option.isSome_iff_exists.mp hvalid.1
  obtain ⟨name, hname⟩ := Option.isSome_iff_exists.mp hvalid.2
  rw [run_scalarEvents]
  simp [endElement, endScalar, handleScalar, hs, printScalar, print, clearProperties, isItem,
    restoreName, restoreContents, closed, onlyName, Item.printed, described, Header.onto,
    Header.keep, htype, hname]

theorem run_vector (hs : s.opened.inHistogram = 0) (hvector : s.opened.vector = [])
    (values : List Text) (hvalid : (Item.vector h values).Valid) :
    s.run (vectorEvents h values) = s.opened.closed s.opened.headerPrinted s.opened.histogram
      ((Item.vector h values).printed (s.opened.properties "desc") s.opened.nameStack
        s.opened.histogram) := by
  obtain ⟨type, htype⟩ := Option.isSome_iff_exists.mp hvalid.1
  obtain ⟨name, hname⟩ := Option.isSome_iff_exists.mp hvalid.2
  rw [run_vectorEvents]
  simp [endElement, endVector, handleVector, hs, hvector, printVector, print, clearProperties,
    isItem, restoreName, restoreContents, closed, onlyName, Item.printed, Header.onto,
    Header.keep, htype, hname]

/-- The header of a compound is printed once its type and name are there. -/
theorem handleHeader_inner {items : List Item} (hs : s.opened.inHistogram = 0)
    (hvalid : (Item.compound h items).Valid) :
    (s.inner h).handleHeader = { s.inner h with
      headerPrinted := truthy (h.keep "type")
      out := s.opened.out ++ if truthy (h.keep "type") then [(.header (h.keep "type")
        (h.keep "name") (described (h.keep "desc" <|> s.opened.properties "desc")),
          s.opened.nameStack)] else [] } := by
  obtain ⟨hsome, hnot, hname, -⟩ := hvalid
  obtain ⟨type, htype⟩ := Option.isSome_iff_exists.mp hsome
  obtain ⟨name, hnameEq⟩ : ∃ name, h.keep "name" = some name := by
    cases hk : h.keep "name" with
    | none => simp [hk, truthy] at hname
    | some name => exact ⟨name, rfl⟩
  have hkeep : h.keep "type" = some (kept type) := by rw [Header.keep, htype, Option.map_some]
  rw [hnameEq] at hname
  rw [hkeep] at hnot
  have htypeIn : (s.inner h).properties "type" = some (kept type) := by
    simp [inner, Header.onto, hkeep]
  have hnameIn : (s.inner h).properties "name" = some name := by simp [inner, Header.onto, hnameEq]
  have hin : (s.inner h).inHistogram = 0 := hs
  cases htruthy : truthy (some (kept type)) with
  | false =>
    have htest : (truthy ((s.inner h).properties "type") &&
        truthy ((s.inner h).properties "name") && !(s.inner h).headerPrinted) = false := by
      rw [htypeIn, htruthy]
      rfl
    rw [handleHeader, if_neg (Bool.eq_false_iff.mp htest), hkeep, htruthy,
      if_neg Bool.false_ne_true, List.append_nil]
    rfl
  | true =>
    have hentered : ¬ ((s.inner h).inHistogram = 0 ∧
        (s.inner h).properties "type" = some "histogram".toList) := fun hh =>
      hnot (htypeIn.symm.trans hh.2)
    have hdata : ¬ ((s.inner h).inHistogram = 1 ∧ (s.inner h).properties "type" =
        some "info".toList ∧ (s.inner h).properties "name" = some "data".toList) := fun hh =>
      Nat.zero_ne_one (hin.symm.trans hh.1)
    have htest : (truthy ((s.inner h).properties "type") &&
        truthy ((s.inner h).properties "name") && !(s.inner h).headerPrinted) = true := by
      rw [htypeIn, hnameIn, htruthy, hname]
      rfl
    rw [handleHeader, if_pos htest]
    dsimp only
    rw [if_neg hentered, if_neg hdata, if_pos hin, printHeader, htypeIn, hnameIn, hkeep, htruthy,
      hnameEq, if_pos rfl]
    rfl

theorem opened_inner {items : List Item} (hs : s.opened.inHistogram = 0)
    (hvalid : (Item.compound h items).Valid) :
    (s.inner h).opened = { s.inner h with
      headerPrinted := truthy (h.keep "type")
      nameStack := (h.keep "name").getD [] :: s.opened.nameStack
      properties := Function.update (h.onto s.opened.properties) "name" none
      out := s.opened.out ++ if truthy (h.keep "type") then [(.header (h.keep "type")
        (h.keep "name") (described (h.keep "desc" <|> s.opened.properties "desc")),
          s.opened.nameStack)] else [] } := by
  have hheader := handleHeader_inner hs hvalid
  obtain ⟨-, -, hname, -⟩ := hvalid
  obtain ⟨name, hnameEq⟩ : ∃ name, h.keep "name" = some name := by
    cases hk : h.keep "name" with
    | none => simp [hk, truthy] at hname
    | some name => exact ⟨name, rfl⟩
  rw [hnameEq] at hname
  rw [opened, hheader]
  simp [inner, Header.onto, hnameEq, hname, hs]

/-- The end of a compound outside of histograms: its footer is printed. -/
theorem endElement_compound {u v : State} {name : Text} (hv : u.handleHeader = v)
    (hhist : v.inHistogram = 0) (hself : v.properties "name" = some name)
    (hname : truthy (some name) = true) :
    u.endElement "compound" = ({ v with
      contents := v.charStack.headD []
      charStack := v.charStack.tail } : State).closed v.headerPrinted v.histogram
        [(.footer (some name), v.nameStack)] := by
  simp [endElement, endCompound, hv, handleFooter, hhist, hself, hname, printFooter, print,
    clearProperties, isItem, restoreName, restoreContents, closed, onlyName]

/-- The end of a compound without elements. -/
theorem endElement_inner (hs : s.opened.inHistogram = 0) (hvalid : (Item.compound h []).Valid) :
    (s.inner h).endElement "compound" = s.opened.closed (truthy (h.keep "type"))
      s.opened.histogram ((Item.compound h []).printed (s.opened.properties "desc")
        s.opened.nameStack s.opened.histogram) := by
  have hheader := handleHeader_inner hs hvalid
  obtain ⟨-, -, hname, -⟩ := hvalid
  obtain ⟨name, hnameEq⟩ : ∃ name, h.keep "name" = some name := by
    cases hk : h.keep "name" with
    | none => simp [hk, truthy] at hname
    | some name => exact ⟨name, rfl⟩
  rw [hnameEq] at hname
  have hself : h.onto s.opened.properties "name" = some name := by simp [Header.onto, hnameEq]
  rw [endElement_compound hheader hs hself hname, Item.printed, itemsPrinted, List.append_nil,
    hnameEq]
  simp only [closed, List.append_assoc]
  rfl

/-- What is left of the properties after an element of a histogram. -/
def bare (s : State) : State := { s with properties := fun _ => none }

theorem run_part {p : Part} (hp : p.Valid) (hs : s.opened.inHistogram ≠ 0)
    (hvector : s.opened.vector = []) :
    s.run p.events = { s.opened.bare with histogram := p.hash s.opened.histogram } := by
  cases p with
  | scalar h value =>
    obtain ⟨name, hname⟩ := Option.isSome_iff_exists.mp hp
    have hkeep : h.keep "name" = some (kept name) := by rw [Header.keep, hname, Option.map_some]
    rw [Part.events, run_scalarEvents]
    simp [endElement, endScalar, handleScalar, hs, setHistogram, clearProperties, isItem,
      restoreContents, bare, Part.hash, Header.onto, hkeep]
  | columns h values =>
    obtain ⟨htype, hname⟩ := hp
    have htypeKeep : h.keep "type" = some "info".toList := by rw [Header.keep, htype]; rfl
    have hnameKeep : h.keep "name" = some "column names".toList := by rw [Header.keep, hname]; rfl
    rw [Part.events, run_vectorEvents]
    simp [endElement, endVector, handleVector, hs, hvector, setHistogram, clearProperties, isItem,
      restoreContents, bare, Part.hash, Header.onto, htypeKeep, hnameKeep]

/-- Parts that are not the first in their histogram. -/
theorem run_parts {parts : List Part} (hparts : ∀ p ∈ parts, p.Valid)
    (hbare : s.properties = fun _ => none) (hs : s.inHistogram ≠ 0) (hvector : s.vector = []) :
    s.run (parts.flatMap Part.events) =
      { s with histogram := parts.foldl Part.hash s.histogram } := by
  induction parts generalizing s with
  | nil => rfl
  | cons p parts ih =>
    obtain ⟨hp, hrest⟩ := List.forall_mem_cons.mp hparts
    have hopened := opened_bare hbare
    have hpart := run_part (s := s) hp (by rw [hopened]; exact hs) (by rw [hopened]; exact hvector)
    rw [hopened] at hpart
    rw [List.flatMap_cons, run_append, hpart]
    refine Eq.trans (ih hrest rfl hs hvector) ?_
    simp only [List.foldl_cons, bare, hbare]

/-- A histogram is entered, and its name does not go onto the stack. -/
theorem opened_histogram (hs : s.opened.inHistogram = 0)
    (htype : h.get "type" = some "histogram".toList) (hname : truthy (h.keep "name") = true) :
    (s.inner h).opened = { s.inner h with
      inHistogram := 1
      headerPrinted := true
      histogram := enterHash h (s.opened.properties "desc") s.opened.histogram } := by
  have hkeep : h.keep "type" = some "histogram".toList := by rw [Header.keep, htype]; rfl
  obtain ⟨name, hnameEq⟩ : ∃ name, h.keep "name" = some name := by
    cases hk : h.keep "name" with
    | none => simp [hk, truthy] at hname
    | some name => exact ⟨name, rfl⟩
  rw [hnameEq] at hname
  have htypeIn : (s.inner h).properties "type" = some "histogram".toList := by
    simp [inner, Header.onto, hkeep]
  have hnameIn : (s.inner h).properties "name" = some name := by simp [inner, Header.onto, hnameEq]
  have hentered : (s.inner h).inHistogram = 0 ∧
      (s.inner h).properties "type" = some "histogram".toList := ⟨hs, htypeIn⟩
  have htest : (truthy ((s.inner h).properties "type") &&
      truthy ((s.inner h).properties "name") && !(s.inner h).headerPrinted) = true := by
    rw [htypeIn, hnameIn, hname]
    rfl
  have hheader : (s.inner h).handleHeader = { s.inner h with
      inHistogram := 1
      headerPrinted := true
      histogram := enterHash h (s.opened.properties "desc") s.opened.histogram } := by
    rw [handleHeader, if_pos htest]
    dsimp only
    rw [if_pos hentered, hnameIn, enterHash, hnameEq]
    rfl
  rw [opened, hheader]
  simp [hnameIn, hname]

/-- The data compound of a histogram, at whose first row or end the header is printed. -/
theorem handleHeader_data {data : Header} (hs : s.opened.inHistogram = 1)
    (htype : data.get "type" = some "info".toList) (hname : data.get "name" = some "data".toList) :
    (s.inner data).handleHeader = { s.inner data with
      inHistogram := 2
      headerPrinted := true
      out := s.opened.out ++ [(histogramHeader s.opened.histogram, s.opened.nameStack)] } := by
  have htypeKeep : data.keep "type" = some "info".toList := by rw [Header.keep, htype]; rfl
  have hnameKeep : data.keep "name" = some "data".toList := by rw [Header.keep, hname]; rfl
  have htypeIn : (s.inner data).properties "type" = some "info".toList := by
    simp [inner, Header.onto, htypeKeep]
  have hnameIn : (s.inner data).properties "name" = some "data".toList := by
    simp [inner, Header.onto, hnameKeep]
  have hin : (s.inner data).inHistogram = 1 := hs
  have htest : (truthy ((s.inner data).properties "type") &&
      truthy ((s.inner data).properties "name") && !(s.inner data).headerPrinted) = true := by
    rw [htypeIn, hnameIn]
    rfl
  have hentered : ¬ ((s.inner data).inHistogram = 0 ∧
      (s.inner data).properties "type" = some "histogram".toList) := fun hh =>
    Nat.one_ne_zero (hin.symm.trans hh.1)
  rw [handleHeader, if_pos htest]
  dsimp only
  rw [if_neg hentered, if_pos ⟨hin, htypeIn, hnameIn⟩]
  rfl

theorem run_row (values : List Text) (hs : s.opened.inHistogram ≠ 0)
    (hvector : s.opened.vector = []) (htype : h.get "type" = some "row".toList)
    (hname : (h.get "name").isSome) :
    s.run (vectorEvents h values) = { s.opened.bare with
      out := s.opened.out ++ [(.histogramRow (h.keep "name") (values.map kept),
        s.opened.nameStack)] } := by
  obtain ⟨name, hname⟩ := Option.isSome_iff_exists.mp hname
  have htypeKeep : h.keep "type" = some "row".toList := by rw [Header.keep, htype]; rfl
  have hnameKeep : h.keep "name" = some (kept name) := by rw [Header.keep, hname, Option.map_some]
  rw [run_vectorEvents]
  simp [endElement, endVector, handleVector, hs, hvector, clearProperties, isItem, restoreContents,
    bare, Header.onto, htypeKeep, hnameKeep, printHistogramRow, print]

/-- Rows that are not the first in their histogram. -/
theorem run_rows {rows : List (Header × List Text)}
    (hrows : ∀ row ∈ rows, row.1.get "type" = some "row".toList ∧ (row.1.get "name").isSome)
    (hbare : s.properties = fun _ => none) (hs : s.inHistogram ≠ 0) (hvector : s.vector = []) :
    s.run (rows.flatMap fun row => vectorEvents row.1 row.2) = { s with
      out := s.out ++ rows.map fun row =>
        (.histogramRow (row.1.keep "name") (row.2.map kept), s.nameStack) } := by
  induction rows generalizing s with
  | nil => simp
  | cons row rows ih =>
    obtain ⟨⟨htype, hname⟩, hrest⟩ := List.forall_mem_cons.mp hrows
    have hopened := opened_bare hbare
    have hrow := run_row (s := s) row.2 (by rw [hopened]; exact hs)
      (by rw [hopened]; exact hvector) htype hname
    rw [hopened] at hrow
    rw [List.flatMap_cons, run_append, hrow]
    refine Eq.trans (ih hrest rfl hs hvector) ?_
    simp only [bare, hbare, List.append_assoc, List.map_cons, List.singleton_append]

/-- The end of the data of a histogram. -/
theorem endElement_data {u v : State} (hv : u.handleHeader = v) (hhist : v.inHistogram = 2) :
    u.endElement "compound" = { v.bare with
      inHistogram := 1
      contents := v.charStack.headD []
      charStack := v.charStack.tail
      out := v.out ++ [(.histogramFooter (v.histogram "name".toList), v.nameStack)] } := by
  simp [endElement, endCompound, hv, handleFooter, hhist, printHistogramFooter, print,
    clearProperties, isItem, restoreContents, bare]

/-- The data of a histogram: its header, its rows and its footer are printed. -/
theorem run_data {data : Header} {rows : List (Header × List Text)} (hs : s.opened.inHistogram = 1)
    (hvector : s.opened.vector = []) (htype : data.get "type" = some "info".toList)
    (hname : data.get "name" = some "data".toList)
    (hrows : ∀ row ∈ rows, row.1.get "type" = some "row".toList ∧ (row.1.get "name").isSome) :
    s.run (compoundEvents data (rows.flatMap fun row => vectorEvents row.1 row.2)) =
      { s.opened.bare with
        headerPrinted := true
        out := s.opened.out ++ (histogramHeader s.opened.histogram, s.opened.nameStack) ::
          rows.map (fun row =>
            (.histogramRow (row.1.keep "name") (row.2.map kept), s.opened.nameStack)) ++
          [(.histogramFooter (s.opened.histogram "name".toList), s.opened.nameStack)] } := by
  have hheader := handleHeader_data hs htype hname
  rw [run_compoundEvents]
  cases rows with
  | nil =>
    refine (endElement_data hheader rfl).trans ?_
    simp [inner, bare, hs]
  | cons row rows =>
    obtain ⟨⟨hrow, hrowName⟩, hrest⟩ := List.forall_mem_cons.mp hrows
    have hopened : (s.inner data).opened = { s.inner data with
        inHistogram := 2
        headerPrinted := true
        out := s.opened.out ++ [(histogramHeader s.opened.histogram, s.opened.nameStack)] } := by
      rw [opened, hheader]
      cases (s.inner data).properties "name" <;> simp
    have hfirst := run_row (s := s.inner data) row.2
      (by simp [hopened]) (by rw [hopened]; exact hvector) hrow hrowName
    rw [List.flatMap_cons, run_append, hfirst, hopened]
    refine Eq.trans (congrArg (fun s : State => s.endElement "compound")
      (run_rows hrest rfl (by simp [bare, inner]) hvector)) ?_
    refine Eq.trans (endElement_data (handleHeader_of_type rfl) rfl) ?_
    simp [inner, bare, hs]

/-- The parts in front of the data; the first of them enters the histogram, unless it is the data
that do. -/
theorem run_before {before : List Part} (hs : s.opened.inHistogram = 0)
    (hvector : s.opened.vector = []) (htype : h.get "type" = some "histogram".toList)
    (hname : truthy (h.keep "name") = true) (hparts : ∀ p ∈ before, p.Valid) :
    ∃ properties, ((s.inner h).run (before.flatMap Part.events)).opened = { s.inner h with
      inHistogram := 1
      headerPrinted := true
      histogram := before.foldl Part.hash
        (enterHash h (s.opened.properties "desc") s.opened.histogram)
      properties } := by
  have hopened := opened_histogram hs htype hname
  cases before with
  | nil => exact ⟨_, hopened⟩
  | cons p parts =>
    obtain ⟨hp, hrest⟩ := List.forall_mem_cons.mp hparts
    have hfirst := run_part (s := s.inner h) hp (by simp [hopened]) (by rw [hopened]; exact hvector)
    refine ⟨fun _ => none, ?_⟩
    rw [List.flatMap_cons, run_append, hfirst, hopened]
    refine Eq.trans (congrArg opened (run_parts hrest rfl Nat.one_ne_zero hvector)) ?_
    exact opened_bare rfl

/-- The end of a histogram. -/
theorem endElement_histogram {u : State} (hbare : u.properties = fun _ => none)
    (hhist : u.inHistogram = 1) :
    u.endElement "compound" = ({ u with
      inHistogram := 0
      contents := u.charStack.headD []
      charStack := u.charStack.tail } : State).closed u.headerPrinted u.histogram [] := by
  have hheader : u.handleHeader = u := handleHeader_of_type (by rw [hbare])
  simp [endElement, endCompound, hheader, handleFooter, hhist, clearProperties, isItem,
    restoreName, restoreContents, closed, onlyName]

theorem run_histogram {before after : List Part} {data : Header}
    {rows : List (Header × List Text)} (hs : s.opened.inHistogram = 0)
    (hvector : s.opened.vector = []) (hvalid : (Item.histogram h before data rows after).Valid) :
    s.run (Item.histogram h before data rows after).events = s.opened.closed true
      ((Item.histogram h before data rows after).hash (s.opened.properties "desc")
        s.opened.histogram)
      ((Item.histogram h before data rows after).printed (s.opened.properties "desc")
        s.opened.nameStack s.opened.histogram) := by
  obtain ⟨htype, hname, hparts, hdataType, hdataName, hrows⟩ := hvalid
  obtain ⟨hbefore, hafter⟩ := List.forall_mem_append.mp hparts
  obtain ⟨properties, hopened⟩ := run_before hs hvector htype hname hbefore
  have hdata := run_data (s := (s.inner h).run (before.flatMap Part.events)) (by rw [hopened])
    (by rw [hopened]; exact hvector) hdataType hdataName hrows
  rw [Item.events, run_compoundEvents, run_append, run_append, hdata, hopened]
  refine Eq.trans (congrArg (fun s : State => s.endElement "compound")
    (run_parts hafter rfl Nat.one_ne_zero hvector)) ?_
  refine Eq.trans (endElement_histogram rfl rfl) ?_
  simp [inner, bare, closed, hs, Item.hash, Item.printed]

end State

open State

mutual

/-- What the handler makes of an element outside of histograms, by induction on the element. -/
theorem run_item : ∀ (i : Item) (s : State), i.Valid → s.opened.inHistogram = 0 →
    s.opened.vector = [] → ∃ headerPrinted, s.run i.events = s.opened.closed headerPrinted
      (i.hash (s.opened.properties "desc") s.opened.histogram)
      (i.printed (s.opened.properties "desc") s.opened.nameStack s.opened.histogram)
  | .scalar h value, s, hvalid, hs, _ => ⟨_, run_scalar hs value hvalid⟩
  | .vector h values, s, hvalid, hs, hvector => ⟨_, run_vector hs hvector values hvalid⟩
  | .histogram h before data rows after, s, hvalid, hs, hvector =>
    ⟨_, run_histogram hs hvector hvalid⟩
  | .compound h [], s, hvalid, hs, _ => by
    refine ⟨truthy (h.keep "type"), ?_⟩
    rw [Item.events, run_compoundEvents, itemEvents, run_nil, endElement_inner hs hvalid]
    rfl
  | .compound h (i :: items), s, hvalid, hs, hvector => by
    have hopened := opened_inner hs hvalid
    obtain ⟨-, -, hname, hi, hitems⟩ := hvalid
    obtain ⟨name, hnameEq⟩ : ∃ name, h.keep "name" = some name := by
      cases hk : h.keep "name" with
      | none => simp [hk, truthy] at hname
      | some name => exact ⟨name, rfl⟩
    rw [hnameEq] at hname
    obtain ⟨hp, hfirst⟩ := run_item i (s.inner h) hi (by rw [hopened]; exact hs)
      (by rw [hopened]; exact hvector)
    obtain ⟨hp', hothers⟩ := run_items items ((s.inner h).run i.events) name hitems
      (by rw [hfirst, hopened, hnameEq]; rfl) hname (by rw [hfirst, hopened]; exact hs)
      (by rw [hfirst, hopened]; exact hvector)
    refine ⟨hp', ?_⟩
    rw [Item.events, run_compoundEvents, itemEvents, run_append, hothers, hfirst, hopened]
    refine Eq.trans (endElement_compound (handleHeader_of_type rfl) hs
      (by rw [hnameEq]; rfl) hname) ?_
    simp [closed, State.inner, Item.hash, Item.printed, itemsHash, itemsPrinted, hnameEq,
      Header.onto]

/-- The elements of a compound behind the first one. -/
theorem run_items : ∀ (items : List Item) (s : State) (name : Text), itemsValid items →
    s.properties = onlyName (some name) → truthy (some name) = true → s.inHistogram = 0 →
    s.vector = [] → ∃ headerPrinted, s.run (itemEvents items) = { s with
      headerPrinted
      histogram := itemsHash items none s.histogram
      out := s.out ++ itemsPrinted items none (name :: s.nameStack) s.histogram }
  | [], s, name, _, _, _, _, _ => ⟨s.headerPrinted, by simp [itemEvents, itemsHash, itemsPrinted]⟩
  | i :: items, s, name, hvalid, hprops, hname, hs, hvector => by
    obtain ⟨hi, hitems⟩ := hvalid
    have hopened := opened_between hprops hname hs
    obtain ⟨hp, hfirst⟩ := run_item i s hi (by rw [hopened]; exact hs)
      (by rw [hopened]; exact hvector)
    obtain ⟨hp', hothers⟩ := run_items items (s.run i.events) name hitems
      (by rw [hfirst, hopened]; rfl) hname (by rw [hfirst, hopened]; exact hs)
      (by rw [hfirst, hopened]; exact hvector)
    refine ⟨hp', ?_⟩
    rw [itemEvents, run_append, hothers, hfirst, hopened]
    simp [closed, itemsHash, itemsPrinted, hprops]

end

end Awb.Stats.ToText
