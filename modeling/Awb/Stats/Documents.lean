import Awb.Builder.Paths
import Awb.Lib.Stores

/-! Stats documents: their scalars, vectors and histograms, and the values and the shape that each
of them has. -/

namespace Awb.Stats

/-- The blanks of `\s`. -/
def isSpace (c : Char) : Bool := [' ', '\t', '\n', '\x0b', '\x0c', '\r'].contains c

/-- `get_nodevalue` over the text nodes that its expression finds; it dies where this is `none`. -/
def getNodevalue : List Text → Option Text
  | [text] => some text
  | texts => texts.find? fun s => s ≠ [] && s ≠ ['\n']

/-- The digits at the start of a text. -/
def leadingDigits (s : Text) : Text := s.takeWhile Char.isDigit

def natOfDigits (ds : Text) : Nat := ds.foldl (fun n c => 10 * n + (c.toNat - 48)) 0

/-- A sign, and what stands behind it. -/
def signed : Text → ℤ × Text
  | '-' :: s => (-1, s)
  | '+' :: s => (1, s)
  | s => (1, s)

/-- The number that `==` takes a text for: the longest decimal number it starts with. -/
def number (s : Text) : ℚ :=
  let (sign, s) := signed (s.dropWhile isSpace)
  let whole := leadingDigits s
  let rest := s.drop whole.length
  let fraction := match rest with
    | '.' :: r => leadingDigits r
    | _ => []
  let mantissa := sign * (natOfDigits (whole ++ fraction) : ℚ) / 10 ^ fraction.length
  match (if rest.head? = some '.' then rest.drop (fraction.length + 1) else rest) with
  | 'e' :: r | 'E' :: r =>
    let (esign, ds) := signed r
    mantissa * (10 : ℚ) ^ (esign * (natOfDigits (leadingDigits ds) : ℤ))
  | _ => mantissa

/-- The texts of the `name` children of an element and of the elements around it. -/
structure Names where
  above : List Text
  name : Text

/-- `_add_xpath_param`; an undefined element has no `findnodes`. -/
def addXpathParam : Option Names → Option Text
  | none => none
  | some names =>
    some <| ((names.above ++ [names.name]).flatMap fun value => ':' :: ':' :: value).drop 2

/-- The full path of an element. -/
def Names.path (names : Names) : Text := "::".toList.intercalate (names.above ++ [names.name])

structure Scalar where
  names : Names
  /-- Its text nodes. -/
  texts : List Text
  carries : (getNodevalue texts).isSome

def Scalar.text (e : Scalar) : Text := (getNodevalue e.texts).get e.carries

structure Vector where
  names : Names
  values : List Text

/-- What a histogram holds: its size, its one vector of column names and its rows. -/
structure Body where
  rows : Text
  cols : Text
  columnNames : List Text
  data : List (Text × List Text)
  shaped : number cols = columnNames.length
  fits : ∀ row ∈ data, row.2.length ≤ columnNames.length

structure Histogram where
  names : Names
  /-- The text nodes of its description. -/
  desc : List Text
  /-- `none` for an empty histogram, which does not have one vector of column names. -/
  body : Option Body

/-- A document, reduced to what the search for the parameters finds in it. -/
structure Document where
  scalars : List Scalar
  vectors : List Vector
  histograms : List Histogram

/-- A stats file: `*NA*`, `*IP*` or a document. -/
inductive StatsFile
  | missing
  | empty
  | document (d : Document)

def chomp (s : Text) : Text := if s.getLast? = some '\n' then s.dropLast else s

inductive Element
  | scalar (e : Scalar)
  | vector (e : Vector)
  | histogram (e : Histogram)

structure Shape where
  type : Text
  nrows : ℚ
  ncols : ℚ
  rlabels : List Text
  clabels : List Text

structure Cell where
  row : Text
  col : Text
  value : Text

def zero : Text := ['0']

/-- The labels of the columns of a vector. -/
def countLabels (n : Nat) : List Text := (List.range n).map (Nat.toDigits 10)

def rowCells (row : Text) (cols values : List Text) : List Cell :=
  List.zipWith (fun col value => ⟨row, col, value⟩) cols values

def Body.cells (body : Body) : List Cell :=
  body.data.flatMap fun row => rowCells row.1 body.columnNames row.2

def Body.shape (body : Body) : Shape where
  type := "histogram".toList
  nrows := number body.rows
  ncols := number body.cols
  rlabels := body.data.map Prod.fst
  clabels := body.columnNames

namespace Element

def path : Element → Text
  | scalar e => e.names.path
  | vector e => e.names.path
  | histogram e => e.names.path

/-- The values of an element, under the labels of their rows and columns. -/
def cells : Element → List Cell
  | scalar e => [⟨zero, zero, chomp e.text⟩]
  | vector e => rowCells zero (countLabels e.values.length) e.values
  | histogram e => (e.body.map Body.cells).getD []

/-- An empty histogram has no shape. -/
def shape : Element → Option Shape
  | scalar _ => some ⟨"scalar".toList, 1, 1, [zero], [zero]⟩
  | vector e =>
    some ⟨"histogram".toList, 1, e.values.length, [zero], countLabels e.values.length⟩
  | histogram e => e.body.map Body.shape

end Element

def StatsFile.elements : StatsFile → List Element
  | missing => []
  | empty => []
  | document d =>
    d.scalars.map .scalar ++ d.vectors.map .vector ++ d.histograms.map .histogram

theorem addXpathParam_some (names : Names) : addXpathParam (some names) = some names.path := by
  have joined : ∀ (first : Text) (rest : List Text),
      ((first :: rest).flatMap fun value => ':' :: ':' :: value).drop 2
        = "::".toList.intercalate (first :: rest) := by
    intro first rest
    induction rest generalizing first with
    | nil => simp [List.intercalate]
    | cons second rest ih =>
      have hrest := ih second
      simp only [List.flatMap_cons, List.cons_append, List.drop_succ_cons, List.drop_zero]
        at hrest ⊢
      rw [hrest]
      simp [List.intercalate, List.intersperse]
  rw [addXpathParam, Names.path]
  cases names.above with
  | nil => rw [List.nil_append, joined]
  | cons first above => rw [List.cons_append, joined]

end Awb.Stats
