import Awb.Lib.Splitting
import Awb.Stats.Combine
import Awb.Workspace.ExpandPath

/-! `EXTRACT`: some rows and columns of a histogram, which are given by their labels or by ranges of
labels, make a new parameter. -/

namespace Awb.Stats

/-! ### Labels -/

inductive ExtractFailure
  | unknownInput (key : Text)
  | unknownParam (param : Text)
  | notHistogram (param : Text)
  | unknownLabelType
  | sameLabels (startLabel endLabel : Text)
  | noStartLabel (startLabel : Text)
  | noEndLabel (endLabel : Text)
  | noLabel (elem : Text)
  | notAdded
  deriving DecidableEq

/-- Two dots behind a character, and a label behind them. -/
def splitAfter (c : Char) : Text → Option (Text × Text)
  | '.' :: '.' :: d :: endLabel => some ([c], d :: endLabel)
  | _ => none

/-- `m/(\S+)\.\.(\S+)/` on a text without blanks: the first part is as long as possible. -/
def splitRange : Text → Option (Text × Text)
  | [] => none
  | c :: text =>
    ((splitRange text).map fun parts => (c :: parts.1, parts.2)).or (splitAfter c text)

/-- The labels that the loop over the range finds, and its flags. -/
def scanRange (startLabel endLabel : Text) : List Text → Bool → List Text × Bool × Bool
  | [], start => ([], start, false)
  | label :: labels, start =>
    if label = startLabel then
      let (parsed, flags) := scanRange startLabel endLabel labels true
      (label :: parsed, flags)
    else if label = endLabel then ([label], start, true)
    else
      let (parsed, flags) := scanRange startLabel endLabel labels start
      (if start then label :: parsed else parsed, flags)

/-- What `/^$elem$/` matches, if it is a regular expression. -/
abbrev LabelPatterns := Text → Option (Text → Bool)

/-- A label of the list matches; without labels nothing is compiled. -/
def anyMatches (re : LabelPatterns) (elem : Text) (labels : List Text) : Bool :=
  (re elem).any labels.any

/-- An element of the list. -/
def parseElem (re : LabelPatterns) (labels : List Text) (elem : Text) :
    Except ExtractFailure (List Text) :=
  match splitRange elem with
  | some (startLabel, endLabel) =>
    if startLabel = endLabel then .error (.sameLabels startLabel endLabel)
    else
      let (parsed, start, stop) := scanRange startLabel endLabel labels false
      if !start then .error (.noStartLabel startLabel)
      else if !stop then .error (.noEndLabel endLabel)
      else .ok parsed
  | none => if anyMatches re elem labels then .ok [elem] else .error (.noLabel elem)

def parseElems (re : LabelPatterns) (labels : List Text) :
    List Text → Except ExtractFailure (List Text)
  | [] => .ok []
  | elem :: elems => do
    let parsed ← parseElem re labels elem
    let rest ← parseElems re labels elems
    return parsed ++ rest

/-- `_parse_labels` -/
def parseLabels (re : LabelPatterns) (labels : Option (List Text)) (str : Text) :
    Except ExtractFailure (List Text) :=
  match labels with
  | none => .error .unknownLabelType
  | some labels =>
    if str = [] then .ok labels
    else parseElems re labels (perlSplit ':' (str.filter fun c => !isSpace c))

/-! ### The function -/

/-- The key and the value of an input, without the blanks around `=`. -/
def readInput (input : Text) : Option (Text × Text) :=
  match input.splitOn '=' with
  | key :: value :: rest =>
    let value := value.dropWhile isSpace
    some (key.rdropWhile isSpace, if rest = [] then value else value.rdropWhile isSpace)
  | _ => none

/-- What the inputs have set. -/
structure Inputs where
  param : Text
  rowString : Text
  colString : Text

/-- A key contains the text. -/
def keyHas (key text : Text) : Bool := key.tails.any text.isPrefixOf

namespace Stored

/-- `_check_hist_par` -/
def checkHistPar (s : Stored) (param : Text) : Except ExtractFailure Unit :=
  match s.paraminfo param with
  | none => .error (.unknownParam param)
  | some info =>
    if info.type = "histogram".toList then .ok () else .error (.notHistogram param)

def readInputs (s : Stored) : List (Text × Text) → Inputs → Except ExtractFailure Inputs
  | [], inputs => .ok inputs
  | (key, value) :: pairs, inputs =>
    if keyHas key "par".toList then do
      s.checkHistPar value
      s.readInputs pairs { inputs with param := value }
    else if keyHas key "row".toList then s.readInputs pairs { inputs with rowString := value }
    else if keyHas key "col".toList then s.readInputs pairs { inputs with colString := value }
    else .error (.unknownInput key)

/-- The loops that fill the new parameter. -/
def extractCells (s : Stored) (newParam param : Text) (rowNames colNames : List Text) : Stored :=
  if rowNames.length = 1 ∧ colNames.length = 1 then
    s.fill newParam [zero] [zero] fun k =>
      ⟨k.exp, k.bm, param, rowNames.headD [], colNames.headD []⟩
  else s.fill newParam rowNames colNames fun k => ⟨k.exp, k.bm, param, k.row, k.col⟩

def addExtracted (s : Stored) (newParam : Text) (rowNames colNames : List Text) :
    Except CombineFailure Stored :=
  if rowNames.length = 1 ∧ colNames.length = 1 then
    s.addNewParam newParam (some ['1']) (some ['1']) [zero] [zero]
  else s.addNewParam newParam (some (Nat.toDigits 10 rowNames.length))
    (some (Nat.toDigits 10 colNames.length)) rowNames colNames

/-- `_func_EXTRACT` -/
def extract (s : Stored) (re : LabelPatterns) (newParam : Text) (inputs : List Text) :
    Except ExtractFailure Stored := do
  let inputs ← s.readInputs (inputs.filterMap readInput) ⟨[], [], []⟩
  let info := s.info inputs.param
  let rowNames ← parseLabels re info.rlabels inputs.rowString
  let colNames ← parseLabels re info.clabels inputs.colString
  match (s.extractCells newParam inputs.param rowNames colNames).addExtracted newParam
      rowNames colNames with
  | .ok s => .ok s
  | .error _ => .error .notAdded

end Stored

/-! ### Specifications -/

inductive Selector
  | label (name : Text)
  | range (first last : Text)

/-- A range, as it is spelled. -/
def rangeText (first last : Text) : Text := first ++ '.' :: '.' :: last

def Selector.text : Selector → Text
  | label name => name
  | range first last => rangeText first last

def specText (spec : List Selector) : Text := [':'].intercalate (spec.map Selector.text)

/-- A label that can be named. -/
def Nameable (name : Text) : Prop :=
  name ≠ [] ∧ ∀ c ∈ name, c ≠ ':' ∧ c ≠ ',' ∧ c ≠ '=' ∧ isSpace c = false

/-- Both labels are there, in this order. -/
def Orderly (labels : List Text) (first last : Text) : Prop :=
  first ∈ labels ∧ last ∈ labels ∧ labels.idxOf first < labels.idxOf last

instance (labels : List Text) (first last : Text) : Decidable (Orderly labels first last) :=
  inferInstanceAs (Decidable (_ ∧ _ ∧ _))

/-- The ends of a range are in order, if they are labels. -/
def Selector.Valid (labels : List Text) : Selector → Prop
  | label name => Nameable name
  | range first last => Nameable first ∧ Nameable last ∧
      (first ∈ labels → last ∈ labels → Orderly labels first last)

/-- The labels from one to another. -/
def slice (labels : List Text) (first last : Text) : List Text :=
  (labels.take (labels.idxOf last + 1)).drop (labels.idxOf first)

/-- Stated once, so that a look-up in a list of texts rests on it by name. -/
theorem lawfulBEq_text : LawfulBEq Text := inferInstance

attribute [local instance] lawfulBEq_text

/-- What an element selects, if the labels that it names are there. -/
def selected (labels : List Text) : Selector → Option (List Text)
  | .label name => if name ∈ labels then some [name] else none
  | .range first last =>
    if first ∈ labels ∧ last ∈ labels then some (slice labels first last) else none

/-- The pieces of all elements, if every one has one. -/
def gatherPieces {α : Type} (piece : α → Option (List Text)) : List α → Option (List Text)
  | [] => some []
  | a :: as => (piece a).bind fun first => (gatherPieces piece as).map (first ++ ·)

/-- Without a specification all labels are selected. -/
def selection (labels : List Text) (spec : List Selector) : Option (List Text) :=
  if spec = [] then some labels else gatherPieces (selected labels) spec

/-- The new parameter is the submatrix; one cell makes a scalar. Nothing else is changed. -/
structure StoresSubmatrix (s s' : Stored) (newParam param : Text) (rows cols : List Text) :
    Prop where
  params : s'.params = some (s.params.getD [] ++ [newParam])
  others : ∀ k : Place, k.path ≠ newParam → s'.data.read k = s.data.read k
  info : ∃ info, s'.paraminfo newParam = some info ∧
    info.HasShape (if rows.length = 1 ∧ cols.length = 1
      then ⟨"scalar".toList, 1, 1, [zero], [zero]⟩
      else ⟨"histogram".toList, rows.length, cols.length, rows, cols⟩)
  cells : ∀ exp ∈ s.experiments, ∀ bm ∈ s.benchmarks, ∀ row ∈ rows, ∀ col ∈ cols,
    s'.data.read (if rows.length = 1 ∧ cols.length = 1
      then ⟨exp, bm, newParam, zero, zero⟩ else ⟨exp, bm, newParam, row, col⟩) =
      s.data.read ⟨exp, bm, param, row, col⟩

/-- What the documentation says of a call. -/
def ExtractsRight (s : Stored) (newParam param : Text) (rows cols : Option (List Text))
    (result : Except ExtractFailure Stored) : Prop :=
  match rows, cols with
  | some rows, some cols => ∃ s', result = .ok s' ∧ StoresSubmatrix s s' newParam param rows cols
  | _, _ => ∃ failure, result = .error failure

/-- An element is read as it is meant: a label is no range, and as a regular expression it matches a
label exactly if it is one; a range is split where it should be. Or it is not selected at all. -/
def Reads (re : LabelPatterns) (labels : List Text) : Selector → Prop
  | .label name =>
    match splitRange name with
    | none => anyMatches re name labels = true ↔ name ∈ labels
    | some (startLabel, endLabel) => name ∉ labels ∧ ¬Orderly labels startLabel endLabel
  | .range first last =>
    match splitRange (rangeText first last) with
    | none => False
    | some (startLabel, endLabel) => (startLabel, endLabel) = (first, last) ∨
        ¬(first ∈ labels ∧ last ∈ labels) ∧ ¬Orderly labels startLabel endLabel

/-- An element names a label that is not there. -/
def NamesUnknown (labels : List Text) : Selector → Prop
  | .label name => name ∉ labels
  | .range first last => first ∉ labels ∨ last ∉ labels

/-- An element ends the call. -/
def Dies (re : LabelPatterns) (labels : List Text) (elem : Text) : Prop :=
  match splitRange elem with
  | none => anyMatches re elem labels = false
  | some (startLabel, endLabel) => ¬Orderly labels startLabel endLabel

/-! ### Ranges -/

theorem splitAfter_eq_some {c : Char} {text startLabel endLabel : Text}
    (h : splitAfter c text = some (startLabel, endLabel)) :
    c :: text = rangeText startLabel endLabel := by
  rw [splitAfter.eq_def] at h
  split at h
  · obtain ⟨rfl, rfl⟩ := Prod.mk.inj (Option.some.inj h)
    rfl
  · cases h

theorem splitRange_eq_some {elem startLabel endLabel : Text}
    (h : splitRange elem = some (startLabel, endLabel)) :
    elem = rangeText startLabel endLabel := by
  induction elem generalizing startLabel with
  | nil => cases h
  | cons c text ih =>
    rcases Option.or_eq_some_iff.mp h with h | ⟨-, h⟩
    · obtain ⟨⟨start, stop⟩, hsplit, heq⟩ := Option.map_eq_some_iff.mp h
      obtain ⟨rfl, rfl⟩ := Prod.mk.inj heq
      rw [ih hsplit]
      rfl
    · exact splitAfter_eq_some h

/-- A range is split somewhere. -/
theorem splitRange_rangeText {first last : Text} (hfirst : first ≠ []) (hlast : last ≠ []) :
    (splitRange (rangeText first last)).isSome := by
  induction first with
  | nil => exact absurd rfl hfirst
  | cons c first ih =>
    rw [rangeText, List.cons_append, splitRange, Option.isSome_or, Option.isSome_map,
      Bool.or_eq_true]
    cases first with
    | nil =>
      obtain ⟨d, last, rfl⟩ := List.exists_cons_of_ne_nil hlast
      exact Or.inr rfl
    | cons c' first => exact Or.inl (ih (List.cons_ne_nil c' first))

section scan
variable {startLabel endLabel : Text} {labels : List Text}

theorem slice_cons {label : Text} (hstart : label ≠ startLabel) (hend : label ≠ endLabel) :
    slice (label :: labels) startLabel endLabel = slice labels startLabel endLabel := by
  rw [slice, List.idxOf_cons_ne _ hend, List.idxOf_cons_ne _ hstart]
  rfl

theorem orderly_cons_iff {label : Text} (hstart : label ≠ startLabel) (hend : label ≠ endLabel) :
    Orderly (label :: labels) startLabel endLabel ↔ Orderly labels startLabel endLabel := by
  rw [Orderly, List.idxOf_cons_ne _ hend, List.idxOf_cons_ne _ hstart]
  simp [Orderly, Ne.symm hstart, Ne.symm hend]

/-- Behind the first label of a range. -/
theorem scanRange_true (hstart : startLabel ∉ labels) :
    scanRange startLabel endLabel labels true =
      (labels.take (labels.idxOf endLabel + 1), true, decide (endLabel ∈ labels)) := by
  induction labels with
  | nil => rfl
  | cons label labels ih =>
    obtain ⟨hne, hstart⟩ := not_or.mp (List.mem_cons.not.mp hstart)
    rw [scanRange, if_neg (Ne.symm hne), ih hstart]
    by_cases hend : label = endLabel
    · simp [hend]
    · rw [if_neg hend, List.idxOf_cons_ne _ hend]
      simp [Ne.symm hend]

theorem scanRange_false (hnodup : labels.Nodup) (hne : startLabel ≠ endLabel) :
    let (parsed, start, stop) := scanRange startLabel endLabel labels false
    (start = true ∧ stop = true ↔ Orderly labels startLabel endLabel) ∧
      (start = true → stop = true → parsed = slice labels startLabel endLabel) := by
  induction labels with
  | nil => simp [scanRange, Orderly]
  | cons label labels ih =>
    obtain ⟨hlabel, hnodup⟩ := List.nodup_cons.mp hnodup
    rw [scanRange]
    by_cases hstart : label = startLabel
    · subst hstart
      rw [if_pos rfl, scanRange_true hlabel]
      have hidx : (label :: labels).idxOf endLabel = labels.idxOf endLabel + 1 :=
        List.idxOf_cons_ne _ hne
      refine ⟨?_, fun _ _ => ?_⟩
      · rw [Orderly, hidx, List.idxOf_cons_self]
        simp [Ne.symm hne]
      · rw [slice, hidx, List.idxOf_cons_self, List.drop_zero, List.take_succ_cons]
    · rw [if_neg hstart]
      by_cases hend : label = endLabel
      · subst hend
        rw [if_pos rfl]
        have horderly : ¬Orderly (label :: labels) startLabel label := by
          rintro ⟨-, -, hlt⟩
          rw [List.idxOf_cons_self] at hlt
          exact Nat.not_lt_zero _ hlt
        simp [horderly]
      · rw [if_neg hend, slice_cons hstart hend, orderly_cons_iff hstart hend]
        exact ih hnodup

end scan

/-! ### Elements -/

/-- What is read of an element, if it is read. -/
def readPiece (re : LabelPatterns) (labels : List Text) (elem : Text) : Option (List Text) :=
  (parseElem re labels elem).toOption

section pieces
variable {re : LabelPatterns} {labels : List Text}

theorem readPiece_of_none {elem : Text} (h : splitRange elem = none) :
    readPiece re labels elem = if anyMatches re elem labels then some [elem] else none := by
  rw [readPiece, parseElem, h]
  by_cases hmatch : anyMatches re elem labels = true
  · simp only [hmatch, if_true]
    rfl
  · simp only [hmatch]
    rfl

theorem readPiece_of_some (hnodup : labels.Nodup) {elem startLabel endLabel : Text}
    (h : splitRange elem = some (startLabel, endLabel)) :
    readPiece re labels elem = if Orderly labels startLabel endLabel
      then some (slice labels startLabel endLabel) else none := by
  rw [readPiece, parseElem, h]
  by_cases hne : startLabel = endLabel
  · have horderly : ¬Orderly labels startLabel endLabel :=
      fun ⟨_, _, hlt⟩ => (hne ▸ hlt).false
    simp only [hne, if_true]
    rw [if_neg (hne ▸ horderly)]
    rfl
  · have hscan := scanRange_false hnodup hne
    simp only [if_neg hne]
    generalize scanRange startLabel endLabel labels false = result at hscan ⊢
    obtain ⟨parsed, start, stop⟩ := result
    obtain ⟨hflags, hparsed⟩ := hscan
    by_cases horderly : Orderly labels startLabel endLabel
    · obtain ⟨rfl, rfl⟩ := hflags.mpr horderly
      rw [if_pos horderly, ← hparsed rfl rfl]
      rfl
    · rw [if_neg horderly]
      cases start with
      | false => rfl
      | true =>
        cases stop with
        | false => rfl
        | true => exact absurd (hflags.mp ⟨rfl, rfl⟩) horderly

/-- A range begins with its first label, and has another one. -/
theorem slice_eq_cons {first last : Text} (h : Orderly labels first last) :
    ∃ second rest, slice labels first last = first :: second :: rest := by
  obtain ⟨hfirst, hlast, hlt⟩ := h
  have hlength : (slice labels first last).length =
      labels.idxOf last + 1 - labels.idxOf first := by
    have hle := List.idxOf_lt_length_iff.mpr hlast
    rw [slice, List.length_drop, List.length_take, min_eq_left (by omega)]
  have hhead : (slice labels first last)[0]? = some first := by
    rw [slice, List.getElem?_drop, List.getElem?_take_of_lt (by omega), Nat.add_zero]
    exact List.getElem?_idxOf hfirst
  match hslice : slice labels first last with
  | [] => simp [hslice] at hhead
  | [_] =>
    rw [hslice] at hlength
    simp only [List.length_singleton] at hlength
    omega
  | label :: second :: rest =>
    rw [hslice] at hhead
    exact ⟨second, rest, by rw [Option.some.inj hhead]⟩

theorem readPiece_eq_none_iff (hnodup : labels.Nodup) (elem : Text) :
    readPiece re labels elem = none ↔ Dies re labels elem := by
  rw [Dies]
  cases hsplit : splitRange elem with
  | none =>
    rw [readPiece_of_none hsplit]
    simp
  | some parts =>
    rw [readPiece_of_some hnodup hsplit]
    simp

theorem selected_eq_none_iff (sel : Selector) :
    selected labels sel = none ↔ NamesUnknown labels sel := by
  cases sel with
  | label name => simp [selected, NamesUnknown]
  | range first last =>
    simp only [selected, NamesUnknown, ite_eq_right_iff, reduceCtorEq, imp_false, not_and_or]

/-- A label is nowhere a whole range. -/
theorem ne_rangeText (first last : Text) : first ≠ rangeText first last := by
  intro h
  have hlength := congrArg List.length h
  simp [rangeText] at hlength

/-- What is read of an element is what it selects, or it begins with another label and has at least
two of them. -/
theorem readPiece_cases (hnodup : labels.Nodup) {sel : Selector} (hsel : sel.Valid labels)
    {read meant : List Text} (hread : readPiece re labels sel.text = some read)
    (hmeant : selected labels sel = some meant) :
    read = meant ∨ 2 ≤ read.length ∧ read.head? ≠ meant.head? ∧ meant ≠ [] := by
  cases hsplit : splitRange sel.text with
  | none =>
    rw [readPiece_of_none hsplit] at hread
    obtain ⟨-, ⟨⟩⟩ := Option.ite_none_right_eq_some.mp hread
    cases sel with
    | label name =>
      obtain ⟨-, ⟨⟩⟩ := Option.ite_none_right_eq_some.mp hmeant
      exact Or.inl rfl
    | range first last =>
      obtain ⟨hfirst, hlast, -⟩ := hsel
      have hsome := splitRange_rangeText hfirst.1 hlast.1
      rw [← Selector.text, hsplit] at hsome
      cases hsome
  | some parts =>
    obtain ⟨startLabel, endLabel⟩ := parts
    rw [readPiece_of_some hnodup hsplit] at hread
    obtain ⟨horderly, ⟨⟩⟩ := Option.ite_none_right_eq_some.mp hread
    obtain ⟨second, rest, hslice⟩ := slice_eq_cons horderly
    have htext := splitRange_eq_some hsplit
    cases sel with
    | label name =>
      obtain ⟨-, ⟨⟩⟩ := Option.ite_none_right_eq_some.mp hmeant
      refine Or.inr ⟨by simp [hslice], ?_, List.cons_ne_nil _ _⟩
      rw [hslice]
      intro heq
      obtain rfl : startLabel = name := Option.some.inj heq
      exact ne_rangeText startLabel endLabel htext
    | range first last =>
      obtain ⟨⟨hfirst, hlast⟩, ⟨⟩⟩ := Option.ite_none_right_eq_some.mp hmeant
      obtain ⟨second', rest', hslice'⟩ := slice_eq_cons (hsel.2.2 hfirst hlast)
      by_cases hstart : startLabel = first
      · subst hstart
        have hend : last = endLabel := by
          have htail := List.append_cancel_left htext
          simpa using htail
        exact Or.inl (by rw [hend])
      · refine Or.inr ⟨by simp [hslice], ?_, by simp [hslice']⟩
        rw [hslice, hslice']
        exact fun heq => hstart (Option.some.inj heq)

/-- An element is read as it is meant under the conditions of `Reads`. -/
theorem readPiece_eq_selected_iff (hnodup : labels.Nodup) {sel : Selector}
    (hsel : sel.Valid labels) :
    readPiece re labels sel.text = selected labels sel ↔ Reads re labels sel := by
  cases sel with
  | label name =>
    rw [Reads, Selector.text, selected]
    cases hsplit : splitRange name with
    | none =>
      rw [readPiece_of_none hsplit]
      by_cases hname : name ∈ labels <;> simp [hname]
    | some parts =>
      obtain ⟨startLabel, endLabel⟩ := parts
      rw [readPiece_of_some hnodup hsplit]
      by_cases horderly : Orderly labels startLabel endLabel
      · obtain ⟨second, rest, hslice⟩ := slice_eq_cons horderly
        by_cases hname : name ∈ labels <;> simp [horderly, hname, hslice]
      · by_cases hname : name ∈ labels <;> simp [horderly, hname]
  | range first last =>
    obtain ⟨hfirst, hlast, hvalid⟩ := hsel
    obtain ⟨⟨startLabel, endLabel⟩, hsplit⟩ :=
      Option.isSome_iff_exists.mp (splitRange_rangeText hfirst.1 hlast.1)
    rw [Reads, Selector.text, selected, hsplit, readPiece_of_some hnodup hsplit]
    by_cases hparts : (startLabel, endLabel) = (first, last)
    · obtain ⟨rfl, rfl⟩ := Prod.mk.inj hparts
      refine iff_of_true ?_ (Or.inl rfl)
      by_cases hmem : startLabel ∈ labels ∧ endLabel ∈ labels
      · rw [if_pos (hvalid hmem.1 hmem.2), if_pos hmem]
      · rw [if_neg fun h => hmem ⟨h.1, h.2.1⟩, if_neg hmem]
    · have hstart : startLabel ≠ first := by
        rintro rfl
        have htail := List.append_cancel_left (splitRange_eq_some hsplit)
        refine hparts (Prod.ext rfl ?_)
        simpa using htail.symm
      by_cases hmem : first ∈ labels ∧ last ∈ labels
      · obtain ⟨second', rest', hslice'⟩ := slice_eq_cons (hvalid hmem.1 hmem.2)
        by_cases horderly : Orderly labels startLabel endLabel
        · obtain ⟨second, rest, hslice⟩ := slice_eq_cons horderly
          simp [hmem, hparts, horderly, hslice, hslice', hstart]
        · simp [hmem, hparts, horderly]
      · by_cases horderly : Orderly labels startLabel endLabel
        · simp [hmem, hparts, horderly]
        · simp [hmem, hparts, horderly]

theorem gatherPieces_eq_none_iff {α : Type} {piece : α → Option (List Text)} {as : List α} :
    gatherPieces piece as = none ↔ ∃ a ∈ as, piece a = none := by
  induction as with
  | nil => simp [gatherPieces]
  | cons a as ih =>
    rw [gatherPieces, List.exists_mem_cons_iff, ← ih]
    cases piece a with
    | none => simp
    | some first => simp

theorem gatherPieces_congr {α : Type} {piece piece' : α → Option (List Text)} {as : List α}
    (h : ∀ a ∈ as, piece a = piece' a) : gatherPieces piece as = gatherPieces piece' as := by
  induction as with
  | nil => rfl
  | cons a as ih =>
    obtain ⟨ha, has⟩ := List.forall_mem_cons.mp h
    rw [gatherPieces, gatherPieces, ha, ih has]

/-- What is read of some elements is what they select, or there are two labels in it. -/
theorem gatherPieces_cases (hnodup : labels.Nodup) {spec : List Selector}
    (hspec : ∀ sel ∈ spec, sel.Valid labels) {read meant : List Text}
    (hread : gatherPieces (fun sel => readPiece re labels sel.text) spec = some read)
    (hmeant : gatherPieces (selected labels) spec = some meant) :
    (read = meant → ∀ sel ∈ spec, readPiece re labels sel.text = selected labels sel) ∧
      (read = meant ∨ 2 ≤ read.length) := by
  induction spec generalizing read meant with
  | nil =>
    refine ⟨fun _ _ hsel => (nomatch hsel), Or.inl ?_⟩
    exact Option.some.inj (hread.symm.trans hmeant)
  | cons sel spec ih =>
    obtain ⟨hsel, hspec⟩ := List.forall_mem_cons.mp hspec
    obtain ⟨piece, hpiece, hread⟩ := Option.bind_eq_some_iff.mp hread
    obtain ⟨rest, hrest, rfl⟩ := Option.map_eq_some_iff.mp hread
    obtain ⟨piece', hpiece', hmeant⟩ := Option.bind_eq_some_iff.mp hmeant
    obtain ⟨rest', hrest', rfl⟩ := Option.map_eq_some_iff.mp hmeant
    obtain ⟨hall, hcases⟩ := ih hspec hrest hrest'
    rcases readPiece_cases hnodup hsel hpiece hpiece' with rfl | ⟨htwo, hhead, hne⟩
    · refine ⟨fun heq => ?_, ?_⟩
      · refine List.forall_mem_cons.mpr ⟨hpiece.trans hpiece'.symm, ?_⟩
        exact hall (List.append_cancel_left heq)
      · rcases hcases with rfl | hlength
        · exact Or.inl rfl
        · exact Or.inr (by rw [List.length_append]; omega)
    · refine ⟨fun heq => ?_, Or.inr (by rw [List.length_append]; omega)⟩
      have hne' : piece ≠ [] := by
        rintro rfl
        simp at htwo
      have heads := congrArg List.head? heq
      rw [List.head?_append_of_ne_nil _ hne', List.head?_append_of_ne_nil _ hne] at heads
      exact absurd heads hhead

end pieces

/-! ### Texts of specifications -/

section texts
variable {labels : List Text} {spec : List Selector}

theorem Selector.Valid.text {sel : Selector} (h : sel.Valid labels) :
    sel.text ≠ [] ∧ ∀ c ∈ sel.text, c ≠ ':' ∧ c ≠ '=' ∧ isSpace c = false := by
  cases sel with
  | label name => exact ⟨h.1, fun c hc => ⟨(h.2 c hc).1, (h.2 c hc).2.2⟩⟩
  | range first last =>
    obtain ⟨hfirst, hlast, -⟩ := h
    refine ⟨by simp [Selector.text, rangeText], fun c hc => ?_⟩
    simp only [Selector.text, rangeText, List.mem_append, List.mem_cons] at hc
    rcases hc with hc | rfl | rfl | hc
    · exact ⟨(hfirst.2 c hc).1, (hfirst.2 c hc).2.2⟩
    · decide
    · decide
    · exact ⟨(hlast.2 c hc).1, (hlast.2 c hc).2.2⟩

theorem mem_specText {c : Char} (hspec : ∀ sel ∈ spec, sel.Valid labels)
    (hc : c ∈ specText spec) : c ≠ '=' ∧ isSpace c = false := by
  rcases Splitting.mem_intercalate hc with hc | ⟨part, hpart, hc⟩
  · obtain rfl := List.mem_singleton.mp hc
    decide
  · obtain ⟨sel, hsel, rfl⟩ := List.mem_map.mp hpart
    exact ((hspec sel hsel).text.2 c hc).2

/-- The elements are found again. -/
theorem perlSplit_specText (hspec : ∀ sel ∈ spec, sel.Valid labels) :
    perlSplit ':' ((specText spec).filter fun c => !isSpace c) = spec.map Selector.text := by
  have hfilter : (specText spec).filter (fun c => !isSpace c) = specText spec :=
    List.filter_eq_self.mpr fun c hc => by simp [(mem_specText hspec hc).2]
  rw [hfilter]
  cases hcases : spec with
  | nil => rfl
  | cons sel rest =>
    have hcolon : ∀ text ∈ spec.map Selector.text, ':' ∉ text := by
      intro text htext hc
      obtain ⟨sel, hsel, rfl⟩ := List.mem_map.mp htext
      exact ((hspec sel hsel).text.2 ':' hc).1 rfl
    rw [← hcases, perlSplit, specText, List.splitOn_intercalate ':' hcolon (by simp [hcases]),
      List.rdropWhile_eq_self_iff]
    intro hne hempty
    obtain ⟨sel, hsel, htext⟩ := List.mem_map.mp (List.getLast_mem hne)
    exact (hspec sel hsel).text.1 (htext.trans (List.isEmpty_iff.mp hempty))

theorem specText_eq_nil_iff (hspec : ∀ sel ∈ spec, sel.Valid labels) :
    specText spec = [] ↔ spec = [] := by
  constructor
  · intro h
    have hsplit := perlSplit_specText hspec
    rw [h] at hsplit
    exact List.map_eq_nil_iff.mp hsplit.symm
  · rintro rfl
    rfl

end texts

/-! ### The call -/

/-- A histogram that has been named, a new parameter, and specifications of rows and columns. -/
structure SubmatrixCall (s : Stored) (newParam param : Text) (rlabels clabels : List Text)
    (rows cols : List Selector) : Prop where
  info : ∃ info, s.paraminfo param = some info ∧
    info.HasShape ⟨"histogram".toList, rlabels.length, clabels.length, rlabels, clabels⟩
  isNew : s.paraminfo newParam = none
  named : '=' ∉ param ∧ ∀ c ∈ param.head?, isSpace c = false
  rowsNodup : rlabels.Nodup
  colsNodup : clabels.Nodup
  rows : ∀ sel ∈ rows, sel.Valid rlabels
  cols : ∀ sel ∈ cols, sel.Valid clabels

/-- The inputs of a call. -/
def extractInputs (param : Text) (rows cols : List Selector) : List Text :=
  ["par=".toList ++ param, "row=".toList ++ specText rows, "col=".toList ++ specText cols]

def readSelection (re : LabelPatterns) (labels : List Text) (spec : List Selector) :
    Option (List Text) :=
  if spec = [] then some labels
  else gatherPieces (fun sel => readPiece re labels sel.text) spec

theorem readInput_eq {key value : Text} (hkey : '=' ∉ key)
    (hblank : ∀ c ∈ key.getLast?, isSpace c = false) (hvalue : '=' ∉ value)
    (hhead : ∀ c ∈ value.head?, isSpace c = false) :
    readInput (key ++ '=' :: value) = some (key, value) := by
  have hsplit : (key ++ '=' :: value).splitOn '=' = [key, value] := by
    have hnot : ∀ part ∈ [key, value], '=' ∉ part := by simp [hkey, hvalue]
    have hparts := List.splitOn_intercalate '=' hnot (List.cons_ne_nil _ _)
    simpa [List.intercalate] using hparts
  have hkey' : key.rdropWhile isSpace = key := by
    rw [List.rdropWhile_eq_self_iff]
    intro hne
    rw [hblank _ (List.getLast?_eq_some_getLast hne)]
    exact Bool.false_ne_true
  have hvalue' : value.dropWhile isSpace = value := by
    cases value with
    | nil => rfl
    | cons c value => exact List.dropWhile_cons_of_neg (by simp [hhead c rfl])
  rw [readInput, hsplit]
  simp only [hkey', hvalue', if_true]

section call
variable {s : Stored} {newParam param : Text} {rlabels clabels : List Text}
  {rows cols : List Selector}

theorem SubmatrixCall.readInputs (h : SubmatrixCall s newParam param rlabels clabels rows cols) :
    s.readInputs ((extractInputs param rows cols).filterMap readInput) ⟨[], [], []⟩ =
      .ok ⟨param, specText rows, specText cols⟩ := by
  obtain ⟨info, hinfo, hshape⟩ := h.info
  have hspec : ∀ {labels : List Text} {spec : List Selector},
      (∀ sel ∈ spec, sel.Valid labels) → '=' ∉ specText spec ∧
        ∀ c ∈ (specText spec).head?, isSpace c = false := by
    refine fun hspec => ⟨fun hc => (mem_specText hspec hc).1 rfl, fun c hc => ?_⟩
    exact (mem_specText hspec (List.mem_of_mem_head? hc)).2
  have hpar : readInput ("par=".toList ++ param) = some ("par".toList, param) :=
    @readInput_eq "par".toList _ (by decide) (by rintro _ ⟨⟩; rfl) h.named.1 h.named.2
  have hrow : readInput ("row=".toList ++ specText rows) = some ("row".toList, specText rows) :=
    @readInput_eq "row".toList _ (by decide) (by rintro _ ⟨⟩; rfl)
      (hspec h.rows).1 (hspec h.rows).2
  have hcol : readInput ("col=".toList ++ specText cols) = some ("col".toList, specText cols) :=
    @readInput_eq "col".toList _ (by decide) (by rintro _ ⟨⟩; rfl)
      (hspec h.cols).1 (hspec h.cols).2
  have hcheck : s.checkHistPar param = .ok () := by
    rw [Stored.checkHistPar, hinfo]
    exact if_pos hshape.type
  have hkeys : keyHas "par".toList "par".toList = true ∧
      keyHas "row".toList "par".toList = false ∧ keyHas "row".toList "row".toList = true ∧
      keyHas "col".toList "par".toList = false ∧ keyHas "col".toList "row".toList = false ∧
      keyHas "col".toList "col".toList = true := by decide
  obtain ⟨hpp, hrp, hrr, hcp, hcr, hcc⟩ := hkeys
  rw [extractInputs, List.filterMap_cons_some hpar, List.filterMap_cons_some hrow,
    List.filterMap_cons_some hcol, List.filterMap_nil]
  simp only [Stored.readInputs, hpp, hrp, hrr, hcp, hcr, hcc, hcheck, if_true]
  rfl

theorem parseElems_toOption (re : LabelPatterns) (labels : List Text) (elems : List Text) :
    (parseElems re labels elems).toOption = gatherPieces (readPiece re labels) elems := by
  induction elems with
  | nil => rfl
  | cons elem elems ih =>
    rw [parseElems, gatherPieces, ← ih, readPiece]
    cases parseElem re labels elem with
    | error failure => rfl
    | ok piece => cases parseElems re labels elems <;> rfl

theorem gatherPieces_map {α β : Type} (f : β → α) (piece : α → Option (List Text)) (bs : List β) :
    gatherPieces piece (bs.map f) = gatherPieces (fun b => piece (f b)) bs := by
  induction bs with
  | nil => rfl
  | cons b bs ih => rw [List.map_cons, gatherPieces, gatherPieces, ih]

theorem parseLabels_toOption (re : LabelPatterns) {labels : List Text} {spec : List Selector}
    (hspec : ∀ sel ∈ spec, sel.Valid labels) :
    (parseLabels re (some labels) (specText spec)).toOption = readSelection re labels spec := by
  rw [parseLabels, readSelection]
  by_cases hempty : spec = []
  · rw [if_pos hempty]
    simp only [(specText_eq_nil_iff hspec).mpr hempty, if_true]
    rfl
  · rw [if_neg hempty]
    simp only [mt (specText_eq_nil_iff hspec).mp hempty, if_false]
    rw [perlSplit_specText hspec, parseElems_toOption, gatherPieces_map]

theorem number_one : number ['1'] = 1 := by decide +kernel

/-- The cells of the new parameter. -/
theorem read_extractCells (hne : param ≠ newParam) (rowNames colNames : List Text) (k : Place) :
    (s.extractCells newParam param rowNames colNames).data.read k =
      if rowNames.length = 1 ∧ colNames.length = 1 then
        if k ∈ s.targets newParam [zero] [zero] then
          s.data.read ⟨k.exp, k.bm, param, rowNames.headD [], colNames.headD []⟩
        else s.data.read k
      else if k ∈ s.targets newParam rowNames colNames then
        s.data.read ⟨k.exp, k.bm, param, k.row, k.col⟩
      else s.data.read k := by
  have hfix : ∀ (source : Place → Place) (rows cols : List Text),
      (∀ k, (source k).path = param) → ∀ k ∈ s.targets newParam rows cols,
        source k ∈ s.targets newParam rows cols → source (source k) = source k := by
    intro source rows cols hsource k _ hmem
    exact absurd ((hsource k).symm.trans (mem_targets.mp hmem).2.2.1) hne
  rw [Stored.extractCells]
  split_ifs with hscalar hk hk
  · refine (Data.copier.read_copyAll _ (hfix _ _ _ fun _ => rfl) s.data k).trans ?_
    exact if_pos hk
  · refine (Data.copier.read_copyAll _ (hfix _ _ _ fun _ => rfl) s.data k).trans ?_
    exact if_neg hk
  · refine (Data.copier.read_copyAll _ (hfix _ _ _ fun _ => rfl) s.data k).trans ?_
    exact if_pos hk
  · refine (Data.copier.read_copyAll _ (hfix _ _ _ fun _ => rfl) s.data k).trans ?_
    exact if_neg hk

theorem addNewParam_of_new (hnew : s.paraminfo newParam = none) (rlabels clabels : List Text)
    (nrows ncols : Text) : ∃ s',
    s.addNewParam newParam (some nrows) (some ncols) rlabels clabels = .ok s' ∧
      s'.data = s.data ∧ s'.params = some (s.params.getD [] ++ [newParam]) ∧
      s'.paraminfo newParam = some ⟨(if number nrows = 1 ∧ number ncols = 1 then "scalar"
        else "histogram").toList, some nrows, some ncols, some rlabels, some clabels⟩ := by
  rw [Stored.addNewParam, hnew]
  exact ⟨_, rfl, rfl, rfl, Function.update_self ..⟩

/-- The submatrix of the rows and columns that were read is stored. -/
theorem addExtracted_stores (hne : param ≠ newParam) (hnew : s.paraminfo newParam = none)
    (rowNames colNames : List Text) : ∃ s',
    (s.extractCells newParam param rowNames colNames).addExtracted newParam rowNames colNames =
      .ok s' ∧ StoresSubmatrix s s' newParam param rowNames colNames := by
  have hread := read_extractCells (s := s) hne rowNames colNames
  have hothers : ∀ k : Place, k.path ≠ newParam →
      (s.extractCells newParam param rowNames colNames).data.read k = s.data.read k := by
    intro k hk
    have hk' : ∀ rows cols, k ∉ s.targets newParam rows cols :=
      fun rows cols hmem => hk (mem_targets.mp hmem).2.2.1
    rw [hread, if_neg (hk' _ _), if_neg (hk' _ _), ite_self]
  have hkept : (s.extractCells newParam param rowNames colNames).paraminfo = s.paraminfo ∧
      (s.extractCells newParam param rowNames colNames).params = s.params := by
    rw [Stored.extractCells]
    split_ifs <;> exact ⟨rfl, rfl⟩
  have hnew' : (s.extractCells newParam param rowNames colNames).paraminfo newParam = none :=
    hkept.1 ▸ hnew
  rw [Stored.addExtracted]
  by_cases hscalar : rowNames.length = 1 ∧ colNames.length = 1
  · obtain ⟨s', hs', hdata, hparams, hinfo⟩ :=
      addNewParam_of_new hnew' [zero] [zero] ['1'] ['1']
    rw [if_pos ⟨number_one, number_one⟩] at hinfo
    rw [if_pos hscalar]
    refine ⟨s', hs', hkept.2 ▸ hparams, hdata ▸ hothers, ⟨_, hinfo, ?_⟩, ?_⟩
    · rw [if_pos hscalar]
      exact ⟨rfl, ⟨_, rfl, number_one⟩, ⟨_, rfl, number_one⟩, rfl, rfl⟩
    · intro exp hexp bm hbm row hrow col hcol
      obtain ⟨row', hrow'⟩ := List.length_eq_one_iff.mp hscalar.1
      obtain ⟨col', hcol'⟩ := List.length_eq_one_iff.mp hscalar.2
      rw [hrow', List.mem_singleton] at hrow
      rw [hcol', List.mem_singleton] at hcol
      have hmem : (⟨exp, bm, newParam, zero, zero⟩ : Place) ∈ s.targets newParam [zero] [zero] :=
        mem_targets.mpr ⟨hexp, hbm, rfl, List.mem_singleton.mpr rfl, List.mem_singleton.mpr rfl⟩
      rw [if_pos hscalar, hdata, hread, if_pos hscalar, if_pos hmem, hrow', hcol', hrow, hcol]
      rfl
  · have hsize : ¬(number (Nat.toDigits 10 rowNames.length) = 1 ∧
        number (Nat.toDigits 10 colNames.length) = 1) := by
      rw [number_toDigits, number_toDigits]
      exact_mod_cast hscalar
    obtain ⟨s', hs', hdata, hparams, hinfo⟩ :=
      addNewParam_of_new hnew' rowNames colNames
        (Nat.toDigits 10 rowNames.length) (Nat.toDigits 10 colNames.length)
    rw [if_neg hsize] at hinfo
    rw [if_neg hscalar]
    refine ⟨s', hs', hkept.2 ▸ hparams, hdata ▸ hothers, ⟨_, hinfo, ?_⟩, ?_⟩
    · rw [if_neg hscalar]
      exact ⟨rfl, ⟨_, rfl, number_toDigits _⟩, ⟨_, rfl, number_toDigits _⟩, rfl, rfl⟩
    · intro exp hexp bm hbm row hrow col hcol
      have hmem : (⟨exp, bm, newParam, row, col⟩ : Place) ∈
          s.targets newParam rowNames colNames :=
        mem_targets.mpr ⟨hexp, hbm, rfl, hrow, hcol⟩
      rw [if_neg hscalar, hdata, hread, if_neg hscalar, if_pos hmem]

/-- A call stores what is read of the specifications. -/
theorem SubmatrixCall.extractsRight_readSelection
    (h : SubmatrixCall s newParam param rlabels clabels rows cols) (re : LabelPatterns) :
    ExtractsRight s newParam param (readSelection re rlabels rows) (readSelection re clabels cols)
      (s.extract re newParam (extractInputs param rows cols)) := by
  obtain ⟨info, hinfo, hshape⟩ := h.info
  have hne : param ≠ newParam := by
    rintro rfl
    rw [h.isNew] at hinfo
    cases hinfo
  have hlabels : (s.info param).rlabels = some rlabels ∧ (s.info param).clabels = some clabels := by
    rw [Stored.info, hinfo, Option.getD_some]
    exact ⟨hshape.rlabels, hshape.clabels⟩
  rw [Stored.extract, h.readInputs, ← parseLabels_toOption re h.rows,
    ← parseLabels_toOption re h.cols]
  change ExtractsRight _ _ _ _ _ (parseLabels re (s.info param).rlabels (specText rows) >>= _)
  rw [hlabels.1]
  cases parseLabels re (some rlabels) (specText rows) with
  | error failure => exact ⟨failure, rfl⟩
  | ok rowNames =>
    change ExtractsRight _ _ _ _ _ (parseLabels re (s.info param).clabels (specText cols) >>= _)
    rw [hlabels.2]
    cases parseLabels re (some clabels) (specText cols) with
    | error failure => exact ⟨failure, rfl⟩
    | ok colNames =>
      obtain ⟨s', hs', hstores⟩ := addExtracted_stores hne h.isNew rowNames colNames
      refine ⟨s', ?_, hstores⟩
      change (match Stored.addExtracted _ _ _ _ with | .ok s => _ | .error _ => _) = _
      rw [hs']

/-- A stored submatrix has its rows and columns, unless there is only one cell in it. -/
theorem StoresSubmatrix.unique {s' : Stored} {rowNames colNames rowNames' colNames' : List Text}
    (h : StoresSubmatrix s s' newParam param rowNames colNames)
    (h' : StoresSubmatrix s s' newParam param rowNames' colNames')
    (hrows : rowNames = rowNames' ∨ 2 ≤ rowNames.length)
    (hcols : colNames = colNames' ∨ 2 ≤ colNames.length) :
    rowNames = rowNames' ∧ colNames = colNames' := by
  by_cases hscalar : rowNames.length = 1 ∧ colNames.length = 1
  · exact ⟨hrows.resolve_right (by omega), hcols.resolve_right (by omega)⟩
  · obtain ⟨info, hinfo, hshape⟩ := h.info
    obtain ⟨info', hinfo', hshape'⟩ := h'.info
    obtain rfl := Option.some.inj (hinfo.symm.trans hinfo')
    rw [if_neg hscalar] at hshape
    split_ifs at hshape'
    · have htypes : "histogram".toList ≠ "scalar".toList := by decide
      exact absurd (hshape.type.symm.trans hshape'.type) htypes
    · exact ⟨Option.some.inj (hshape.rlabels.symm.trans hshape'.rlabels),
        Option.some.inj (hshape.clabels.symm.trans hshape'.clabels)⟩

theorem readSelection_cases (re : LabelPatterns) {labels : List Text} {spec : List Selector}
    (hnodup : labels.Nodup) (hspec : ∀ sel ∈ spec, sel.Valid labels) {read meant : List Text}
    (hread : readSelection re labels spec = some read)
    (hmeant : selection labels spec = some meant) :
    (read = meant → ∀ sel ∈ spec, Reads re labels sel) ∧ (read = meant ∨ 2 ≤ read.length) := by
  by_cases hempty : spec = []
  · rw [readSelection, if_pos hempty] at hread
    rw [selection, if_pos hempty] at hmeant
    refine ⟨fun _ sel hsel => absurd hsel (by simp [hempty]), Or.inl ?_⟩
    exact Option.some.inj (hread.symm.trans hmeant)
  · rw [readSelection, if_neg hempty] at hread
    rw [selection, if_neg hempty] at hmeant
    obtain ⟨hall, hcases⟩ := gatherPieces_cases hnodup hspec hread hmeant
    exact ⟨fun heq sel hsel => (readPiece_eq_selected_iff hnodup (hspec sel hsel)).mp
      (hall heq sel hsel), hcases⟩

theorem readSelection_eq_none_iff (re : LabelPatterns) {labels : List Text} {spec : List Selector}
    (hnodup : labels.Nodup) : readSelection re labels spec = none ↔
      ∃ sel ∈ spec, Dies re labels sel.text := by
  rw [readSelection]
  split_ifs with hempty
  · simp [hempty]
  · simp only [gatherPieces_eq_none_iff, readPiece_eq_none_iff hnodup]

theorem selection_eq_none_iff {labels : List Text} {spec : List Selector} :
    selection labels spec = none ↔ ∃ sel ∈ spec, NamesUnknown labels sel := by
  rw [selection]
  split_ifs with hempty
  · simp [hempty]
  · simp only [gatherPieces_eq_none_iff, selected_eq_none_iff]

theorem readSelection_eq_selection (re : LabelPatterns) {labels : List Text}
    {spec : List Selector} (hnodup : labels.Nodup) (hspec : ∀ sel ∈ spec, sel.Valid labels)
    (hreads : ∀ sel ∈ spec, Reads re labels sel) :
    readSelection re labels spec = selection labels spec := by
  rw [readSelection, selection, gatherPieces_congr fun sel hsel =>
    (readPiece_eq_selected_iff hnodup (hspec sel hsel)).mpr (hreads sel hsel)]

/-- The call fails, as it is read and as it should. -/
def FailsRightly (re : LabelPatterns) (rlabels clabels : List Text) (rows cols : List Selector) :
    Prop :=
  ((∃ sel ∈ rows, NamesUnknown rlabels sel) ∨ ∃ sel ∈ cols, NamesUnknown clabels sel) ∧
    ((∃ sel ∈ rows, Dies re rlabels sel.text) ∨ ∃ sel ∈ cols, Dies re clabels sel.text)

theorem extractsRight_of_none {rowNames colNames : Option (List Text)}
    {result : Except ExtractFailure Stored} (h : rowNames = none ∨ colNames = none) :
    ExtractsRight s newParam param rowNames colNames result ↔
      ∃ failure, result = .error failure := by
  rcases h with rfl | rfl
  · exact Iff.rfl
  · cases rowNames <;> exact Iff.rfl

/-- `EXTRACT` stores the submatrix, or fails, as it should, exactly if every element is read as it
is meant, or if the call fails anyway. -/
theorem extract_extractsRight_iff (h : SubmatrixCall s newParam param rlabels clabels rows cols)
    (re : LabelPatterns) :
    ExtractsRight s newParam param (selection rlabels rows) (selection clabels cols)
        (s.extract re newParam (extractInputs param rows cols)) ↔
      FailsRightly re rlabels clabels rows cols ∨
        (∀ sel ∈ rows, Reads re rlabels sel) ∧ ∀ sel ∈ cols, Reads re clabels sel := by
  have hread := h.extractsRight_readSelection re
  generalize s.extract re newParam (extractInputs param rows cols) = result at hread ⊢
  rw [FailsRightly, ← selection_eq_none_iff, ← selection_eq_none_iff,
    ← readSelection_eq_none_iff re h.rowsNodup, ← readSelection_eq_none_iff re h.colsNodup]
  constructor
  · intro hmeant
    by_cases hnone : readSelection re rlabels rows = none ∨ readSelection re clabels cols = none
    · obtain ⟨failure, rfl⟩ := (extractsRight_of_none hnone).mp hread
      refine Or.inl ⟨?_, hnone⟩
      by_contra hsome
      obtain ⟨hrows, hcols⟩ := not_or.mp hsome
      obtain ⟨rowNames, hrows⟩ := Option.ne_none_iff_exists'.mp hrows
      obtain ⟨colNames, hcols⟩ := Option.ne_none_iff_exists'.mp hcols
      rw [hrows, hcols] at hmeant
      obtain ⟨s', hs', -⟩ := hmeant
      cases hs'
    · obtain ⟨hrows, hcols⟩ := not_or.mp hnone
      obtain ⟨rowNames, hrows⟩ := Option.ne_none_iff_exists'.mp hrows
      obtain ⟨colNames, hcols⟩ := Option.ne_none_iff_exists'.mp hcols
      rw [hrows, hcols] at hread
      obtain ⟨s', rfl, hstores⟩ := hread
      by_cases hnone' : selection rlabels rows = none ∨ selection clabels cols = none
      · obtain ⟨failure, hfailure⟩ := (extractsRight_of_none hnone').mp hmeant
        cases hfailure
      · obtain ⟨hrows', hcols'⟩ := not_or.mp hnone'
        obtain ⟨rowNames', hrows'⟩ := Option.ne_none_iff_exists'.mp hrows'
        obtain ⟨colNames', hcols'⟩ := Option.ne_none_iff_exists'.mp hcols'
        rw [hrows', hcols'] at hmeant
        obtain ⟨s'', hs'', hstores'⟩ := hmeant
        obtain rfl := Except.ok.inj hs''
        obtain ⟨hallrows, hrowcases⟩ := readSelection_cases re h.rowsNodup h.rows hrows hrows'
        obtain ⟨hallcols, hcolcases⟩ := readSelection_cases re h.colsNodup h.cols hcols hcols'
        obtain ⟨hroweq, hcoleq⟩ := hstores.unique hstores' hrowcases hcolcases
        exact Or.inr ⟨hallrows hroweq, hallcols hcoleq⟩
  · rintro (⟨hmeant, hfails⟩ | ⟨hrows, hcols⟩)
    · exact (extractsRight_of_none hmeant).mpr ((extractsRight_of_none hfails).mp hread)
    · rwa [readSelection_eq_selection re h.rowsNodup h.rows hrows,
        readSelection_eq_selection re h.colsNodup h.cols hcols] at hread

end call

/-! ### A histogram with one column -/

def columnInfo (rlabels : List Text) : Info :=
  ⟨"histogram".toList, some (Nat.toDigits 10 rlabels.length), some ['1'], some rlabels,
    some [zero]⟩

/-- The histogram `p` of one experiment and benchmark, with its labels as values. -/
def oneColumn (rlabels : List Text) : Stored where
  data exp bm path :=
    if exp = ['e'] ∧ bm = ['b'] ∧ path = ['p'] then some fun row col => some (row ++ col) else none
  paraminfo path := if path = ['p'] then some (columnInfo rlabels) else none
  params := some [['p']]
  experiments := [['e']]
  benchmarks := [['b']]

theorem submatrixCall_oneColumn {rlabels : List Text} (hnodup : rlabels.Nodup)
    {rows : List Selector} (hrows : ∀ sel ∈ rows, sel.Valid rlabels) :
    SubmatrixCall (oneColumn rlabels) ['n'] ['p'] rlabels [zero] rows [] where
  info := by
    refine ⟨columnInfo rlabels, rfl, rfl, ⟨_, rfl, number_toDigits _⟩, ⟨_, rfl, ?_⟩, rfl, rfl⟩
    rw [number_one]
    exact Nat.cast_one.symm
  isNew := rfl
  named := ⟨by decide, by rintro _ ⟨⟩; rfl⟩
  rowsNodup := hnodup
  colsNodup := List.nodup_singleton zero
  rows := hrows
  cols _ hsel := nomatch hsel

/-- Names without special characters match themselves only. -/
def plainLabels : LabelPatterns := fun elem => some fun label => label = elem

/-- The rows from `r1` to `r2`, and `r4`. -/
def someRows : List Selector := [.range "r1".toList "r2".toList, .label "r4".toList]

def fourLabels : List Text := ["r1".toList, "r2".toList, "r3".toList, "r4".toList]

theorem extract_someRows :
    ExtractsRight (oneColumn fourLabels) ['n'] ['p'] (selection fourLabels someRows)
      (selection [zero] [])
      ((oneColumn fourLabels).extract plainLabels ['n'] (extractInputs ['p'] someRows [])) := by
  refine (extract_extractsRight_iff (submatrixCall_oneColumn (by decide) ?_) plainLabels).mpr
    (Or.inr ⟨?_, fun _ hsel => nomatch hsel⟩)
  · have hname : ∀ name ∈ fourLabels, Nameable name := by
      simp [fourLabels, Nameable, isSpace]
    refine List.forall_mem_cons.mpr ⟨⟨hname _ (by decide), hname _ (by decide), fun _ _ => ?_⟩,
      List.forall_mem_singleton.mpr (hname _ (by decide))⟩
    decide
  · refine List.forall_mem_cons.mpr ⟨Or.inl rfl, List.forall_mem_singleton.mpr ?_⟩
    exact iff_of_true (by decide) (by decide)

/-- `/^a+b$/` is some times `a` and a `b`. -/
def plusLabels : LabelPatterns := fun elem => some fun label =>
  if elem = "a+b".toList then
    label.head? = some 'a' && label.dropWhile (· = 'a') = ['b']
  else label = elem

/-- The label `a+b` is not found. -/
theorem not_extract_plus :
    SubmatrixCall (oneColumn ["a+b".toList]) ['n'] ['p'] ["a+b".toList] [zero]
        [.label "a+b".toList] [] ∧
      ¬ExtractsRight (oneColumn ["a+b".toList]) ['n'] ['p']
        (selection ["a+b".toList] [.label "a+b".toList]) (selection [zero] [])
        ((oneColumn ["a+b".toList]).extract plusLabels ['n']
          (extractInputs ['p'] [.label "a+b".toList] [])) := by
  refine ⟨submatrixCall_oneColumn (List.nodup_singleton _) ?_, ?_⟩
  · refine List.forall_mem_singleton.mpr ?_
    simp [Selector.Valid, Nameable, isSpace]
  · rintro ⟨s', hs', -⟩
    have hfails : ((oneColumn ["a+b".toList]).extract plusLabels ['n']
        (extractInputs ['p'] [.label "a+b".toList] [])).toOption.isSome = false := by
      decide +kernel
    rw [hs'] at hfails
    cases hfails

end Awb.Stats
