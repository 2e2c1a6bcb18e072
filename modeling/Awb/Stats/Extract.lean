import Awb.Stats.Documents

/-! Extraction of the data of all experiments and benchmarks, before the parameters get their short
names (`_extract_data`). -/

namespace Awb.Stats

/-- The rows and columns of one parameter. -/
abbrev Table := Text → Text → Option Text

/-- The hash `data`, by experiment, benchmark and parameter. -/
abbrev Data := Text → Text → Text → Option Table

structure Place where
  exp : Text
  bm : Text
  path : Text
  row : Text
  col : Text
  deriving DecidableEq

namespace Data

def read (d : Data) (k : Place) : Option Text :=
  (d k.exp k.bm k.path).bind fun table => table k.row k.col

def put (d : Data) (k : Place) (value : Text) : Data := fun exp bm path =>
  if exp = k.exp ∧ bm = k.bm ∧ path = k.path then
    some fun row col =>
      if row = k.row ∧ col = k.col then some value
      else (d exp bm path).bind fun table => table row col
  else d exp bm path

theorem read_put (d : Data) (k : Place) (value : Text) (k' : Place) :
    (d.put k value).read k' = if k' = k then some value else d.read k' := by
  obtain ⟨exp, bm, path, row, col⟩ := k
  obtain ⟨exp', bm', path', row', col'⟩ := k'
  simp only [read, put, Place.mk.injEq]
  by_cases hpath : exp' = exp ∧ bm' = bm ∧ path' = path
  · obtain ⟨rfl, rfl, rfl⟩ := hpath
    simp
  · have hplace : ¬ (exp' = exp ∧ bm' = bm ∧ path' = path ∧ row' = row ∧ col' = col) :=
      fun h => hpath ⟨h.1, h.2.1, h.2.2.1⟩
    rw [if_neg hpath, if_neg hplace]

def store : Store Data Place Text := ⟨read, put, read_put⟩

end Data

/-- What `paraminfo` holds for a parameter. -/
structure Info where
  type : Text
  nrows : Option Text := none
  ncols : Option Text := none
  rlabels : Option (List Text) := none
  clabels : Option (List Text) := none

structure Extracted where
  data : Data
  paraminfo : Text → Option Info
  params : List Text
  /-- The full paths of each name. -/
  ppaths : Text → List Text

/-- The cleared statistics. -/
def Extracted.clear : Extracted := ⟨fun _ _ _ => none, fun _ => none, [], fun _ => []⟩

/-- The two ways to fail: `die`, or a message and a return of 0 after `_clear_data`. -/
inductive Failure
  | died
  | cleared

def orDie {α : Type} : Option α → Except Failure α
  | none => .error .died
  | some a => .ok a

/-- A parameter that is seen for the first time. -/
def Extracted.include (s : Extracted) (name path : Text) (info : Info) : Extracted :=
  { s with
    paraminfo := Function.update s.paraminfo path (some info)
    params := s.params ++ [path]
    ppaths := Function.update s.ppaths name (s.ppaths name ++ [path]) }

def isError (value : Text) : Bool := "<error".toList.isPrefixOf value

section Elements
variable (exp bm : Text)

/-- `_add_scalar`: the data, and the path unless the value reports an error. -/
def addScalar (data : Data) (elem : Scalar) : Option (Data × Option Text) := do
  let value ← getNodevalue elem.texts
  if isError value then return (data, none)
  let path ← addXpathParam (some elem.names)
  return (data.put ⟨exp, bm, path, zero, zero⟩ (chomp value), some path)

/-- The loop over the scalars; an undefined path is the empty one. -/
def scalarStep (s : Extracted) (elem : Scalar) : Except Failure Extracted := do
  let (data, path) ← orDie (addScalar exp bm s.data elem)
  let s := { s with data }
  let path := path.getD []
  match s.paraminfo path with
  | none =>
    return s.include elem.names.name path
      ⟨"scalar".toList, some ['1'], some ['1'], some [zero], some [zero]⟩
  | some _ => return s

/-- The loop of `_add_vector` over the values, which an error ends. -/
def addValues (path : Text) : Nat → List Text → Data → Data × Option (List Text)
  | _, [], data => (data, some [])
  | count, value :: values, data =>
    if isError value then (data, none)
    else
      let label := Nat.toDigits 10 count
      let (data, clabels) :=
        addValues path (count + 1) values (data.put ⟨exp, bm, path, zero, label⟩ value)
      (data, clabels.map (label :: ·))

/-- `_add_vector`. It calls `_add_xpath_param` as a function and not as a method: the element is
taken for the object, and there is none left for the element. -/
def addVector (data : Data) (elem : Vector) : Option (Data × Option (Text × List Text)) := do
  let path ← addXpathParam none
  let (data, clabels) := addValues exp bm path 0 elem.values data
  return (data, clabels.map fun clabels => (path, clabels))

/-- The loop over the vectors; the labels have to be defined. -/
def vectorStep (s : Extracted) (elem : Vector) : Except Failure Extracted := do
  let (data, added) ← orDie (addVector exp bm s.data elem)
  let s := { s with data }
  let (path, clabels) ← orDie added
  match s.paraminfo path with
  | none =>
    return s.include elem.names.name path
      ⟨"histogram".toList, some ['1'], some (Nat.toDigits 10 clabels.length), some [zero],
        some clabels⟩
  | some info =>
    if (clabels.length : ℚ) ≠ number (info.ncols.getD []) then throw .cleared
    return s

namespace Info

def setRows (info : Info) (rows : Text) : Except Failure Info :=
  match info.nrows with
  | some nrows => if number nrows = number rows then .ok info else .error .died
  | none => .ok { info with nrows := some rows }

def setCols (info : Info) (cols : Text) : Except Failure Info :=
  match info.ncols with
  | some ncols => if number ncols = number cols then .ok info else .error .cleared
  | none => .ok { info with ncols := some cols }

/-- The names of the columns are compared one by one with the labels there are. -/
def setLabels (info : Info) (names : List Text) : Except Failure Info :=
  let labels := info.clabels.getD names
  if (names.zipIdx.all fun (name, colnum) => name = labels.getD colnum []) = false then
    .error .cleared
  else if number (info.ncols.getD []) ≠ names.length then .error .cleared
  else .ok { info with clabels := some labels }

/-- The size and the columns of a histogram are compared with what is recorded, or recorded. -/
def measure (info : Info) (body : Body) : Except Failure Info := do
  let info ← info.setRows body.rows
  let info ← info.setCols body.cols
  info.setLabels body.columnNames

end Info

/-- The values of one row. -/
def addRow (path row : Text) (clabels : List Text) (values : List Text) (data : Data) : Data :=
  values.zipIdx.foldl (fun data (value, colnum) =>
    data.put ⟨exp, bm, path, row, clabels.getD colnum []⟩ value) data

/-- The loop over the rows. -/
def addRows (path : Text) (info : Info) :
    Nat → List (Text × List Text) → Data → Except Failure Data
  | _, [], data => .ok data
  | rownum, (row, values) :: rows, data =>
    if info.rlabels.all fun rlabels => row = rlabels.getD rownum [] then
      addRows path info (rownum + 1) rows
        (addRow exp bm path row (info.clabels.getD []) values data)
    else .error .cleared

/-- The record of a histogram before its data is read: the one there is, or an empty one that the
histogram gets on its first look. -/
def Extracted.seeHistogram (s : Extracted) (name path : Text) : Extracted × Info :=
  match s.paraminfo path with
  | none =>
    let info : Info := ⟨"histogram".toList, none, none, none, none⟩
    (s.include name path info, info)
  | some info => (s, info)

/-- The loop over the histograms. -/
def histogramStep (s : Extracted) (elem : Histogram) : Except Failure Extracted := do
  let path ← orDie (addXpathParam (some elem.names))
  match elem.body with
  | none => return s
  | some body =>
    let (s, info) := s.seeHistogram elem.names.name path
    let _desc ← orDie (getNodevalue elem.desc)
    let info ← info.measure body
    let data ← addRows exp bm path info 0 body.data s.data
    let info := { info with rlabels := some (info.rlabels.getD (body.data.map Prod.fst)) }
    return { s with data, paraminfo := Function.update s.paraminfo path (some info) }

def extractDocument (s : Extracted) (d : Document) : Except Failure Extracted := do
  let s ← d.scalars.foldlM (scalarStep exp bm) s
  let s ← d.vectors.foldlM (vectorStep exp bm) s
  d.histograms.foldlM (histogramStep exp bm) s

def extractFile (s : Extracted) : StatsFile → Except Failure Extracted
  | .missing => return s
  | .empty => return s
  | .document d => extractDocument exp bm s d

end Elements

/-- The options after their expansion, and the files. -/
structure Extraction where
  basedir : Text
  batch : Bool
  experiments : List Text
  benchmarks : List Text
  expandTilda : Text → Text
  /-- What is found under a file name, compressed or not. -/
  stats : Text → StatsFile

/-- `s/\s*(\S*)\s*/$1/`: the blanks around the first word. -/
def stripBlanks (bench : Text) : Text :=
  let word := bench.dropWhile isSpace
  word.takeWhile (!isSpace ·) ++ (word.dropWhile (!isSpace ·)).dropWhile isSpace

namespace Extraction
variable (run : Extraction)

def fileName (dir exp bench : Text) : Text :=
  if run.batch then dir ++ '/' :: exp ++ '/' :: bench ++ ".stats".toList
  else dir ++ '/' :: exp ++ "/bm/".toList ++ bench ++ '/' :: bench ++ ".stats".toList

/-- The files that are read, with their experiment and benchmark. An absolute experiment clears the
directory for itself and for all that follow it, and the benchmarks are stripped in place. -/
def reads (dir : Text) (benchmarks : List Text) : List Text → List (Text × Text × Text)
  | [] => []
  | exp :: experiments =>
    let expanded := run.expandTilda exp
    let dir := if isAbsolutePath expanded then [] else dir
    let benchmarks := benchmarks.map stripBlanks
    benchmarks.map (fun bench => (exp, bench, run.fileName dir expanded bench))
      ++ reads dir benchmarks experiments

def extractData : Except Failure Extracted :=
  (run.reads run.basedir run.benchmarks run.experiments).foldlM
    (fun s (exp, bm, file) => extractFile exp bm s (run.stats file)) Extracted.clear

end Extraction

end Awb.Stats
