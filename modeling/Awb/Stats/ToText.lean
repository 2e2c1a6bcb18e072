import Awb.Stats.Documents

/-! The handler of `Asim::Stats::ToText`: what each event of the parser makes of its state. A call
of a `print_` method stands for its line, with what it is printed from and the stack of names. -/

namespace Awb.Stats.ToText

/-- What `\s` matches in decoded text. -/
def isWhite (c : Char) : Bool :=
  isSpace c || [0x85, 0xa0, 0x1680, 0x2028, 0x2029, 0x202f, 0x205f, 0x3000].contains c.toNat ||
    (0x2000 ≤ c.toNat && c.toNat ≤ 0x200a)

/-- `m/^\s*$/` -/
def blank (text : Text) : Bool := text.all isWhite

/-- A value as a condition. -/
def truthy : Option Text → Bool
  | some text => text ≠ [] && text ≠ ['0']
  | none => false

/-- What an entry of the histogram table holds. -/
inductive Value
  | text (text : Text)
  | array (values : List Text)
  deriving DecidableEq, Repr

abbrev Hash := Text → Option Value

/-- The lines; a description is there if it is printed. -/
inductive Print
  | header (type name desc : Option Text)
  | footer (name : Option Text)
  | scalar (type name desc : Option Text) (contents : Text)
  | vector (type name : Option Text) (values : List Text)
  | histogramHeader (name rows cols entries desc columnNames : Option Value)
  | histogramRow (name : Option Text) (values : List Text)
  | histogramFooter (name : Option Value)
  deriving DecidableEq, Repr

inductive Event
  | startElement (localName : String)
  | endElement (localName : String)
  | characters (data : Text)

/-- The state of the handler; the stacks have their tops in front. -/
structure State where
  contents : Text := []
  charStack : List Text := []
  nameStack : List Text := []
  inHistogram : ℕ := 0
  headerPrinted : Bool := false
  vector : List Text := []
  properties : String → Option Text := fun _ => none
  histogram : Hash := fun _ => none
  out : List (Print × List Text) := []

def isItem (localName : String) : Bool := ["scalar", "vector", "compound"].contains localName

namespace State
variable (s : State)

def print (line : Print) : State := { s with out := s.out ++ [(line, s.nameStack)] }

def printScalar : State :=
  s.print (.scalar (s.properties "type") (s.properties "name")
    ((s.properties "desc").filter (truthy ∘ some)) s.contents)

def printVector : State :=
  s.print (.vector (s.properties "type") (s.properties "name") s.vector)

def printHeader : State :=
  s.print (.header (s.properties "type") (s.properties "name")
    ((s.properties "desc").filter (truthy ∘ some)))

def printFooter : State := s.print (.footer (s.properties "name"))

/-- An empty description prints nothing. -/
def printHistogramHeader : State :=
  s.print (.histogramHeader (s.histogram "name".toList) (s.histogram "rows".toList)
    (s.histogram "cols".toList) (s.histogram "entries".toList)
    ((s.histogram "desc".toList).filter (· ≠ .text [])) (s.histogram "column_names".toList))

def printHistogramRow : State := s.print (.histogramRow (s.properties "name") s.vector)

def printHistogramFooter : State := s.print (.histogramFooter (s.histogram "name".toList))

/-- An entry of the histogram table. -/
def setHistogram (key : Text) (value : Option Value) : State :=
  { s with histogram := Function.update s.histogram key value }

/-- `handle_header`, for the filter that lets everything through. -/
def handleHeader : State :=
  if truthy (s.properties "type") && truthy (s.properties "name") && !s.headerPrinted then
    let s :=
      if s.inHistogram = 0 ∧ s.properties "type" = some "histogram".toList then
        ({ s with inHistogram := 1 }.setHistogram "name".toList
          ((s.properties "name").map .text)).setHistogram "desc".toList
          ((s.properties "desc").map .text)
      else if s.inHistogram = 1 ∧ s.properties "type" = some "info".toList ∧
          s.properties "name" = some "data".toList then
        { s with inHistogram := 2 }.printHistogramHeader
      else if s.inHistogram = 0 then s.printHeader else s
    { s with headerPrinted := true }
  else s

/-- `handle_footer` -/
def handleFooter : State :=
  if s.inHistogram ≠ 0 then
    let s := { s with inHistogram := s.inHistogram - 1 }
    if s.inHistogram ≠ 0 then s.printHistogramFooter else s
  else if truthy (s.properties "name") then s.printFooter else s

/-- `handle_vector` -/
def handleVector : State :=
  if s.inHistogram ≠ 0 then
    if s.properties "type" = some "info".toList ∧
        s.properties "name" = some "column names".toList then
      s.setHistogram "column_names".toList (some (.array s.vector))
    else if s.properties "type" = some "row".toList then s.printHistogramRow
    else s
  else s.printVector

/-- `handle_scalar` -/
def handleScalar : State :=
  if s.inHistogram ≠ 0 then
    s.setHistogram ((s.properties "name").getD []) (some (.text s.contents))
  else s.printScalar

def clearProperties : State := { s with properties := fun _ => none }

/-- `end_scalar` -/
def endScalar : State := s.handleScalar.clearProperties

/-- `end_vector` -/
def endVector : State := { s.handleVector.clearProperties with vector := [] }

/-- `end_compound` -/
def endCompound : State := s.handleHeader.handleFooter.clearProperties

/-- The name of the enclosing compound goes onto the stack, if its header is complete. -/
def opened : State :=
  let s := s.handleHeader
  match s.properties "name" with
  | some name =>
    if truthy (some name) && s.inHistogram = 0 then
      { s with
        nameStack := name :: s.nameStack
        properties := Function.update s.properties "name" none }
    else s
  | none => s

/-- The text of an element starts, and that of the enclosing one is kept. -/
def saveContents : State := { s with charStack := s.contents :: s.charStack, contents := [] }

def restoreContents : State :=
  { s with contents := s.charStack.headD [], charStack := s.charStack.tail }

/-- The name of the enclosing compound comes back from the stack. -/
def restoreName : State :=
  { s with
    properties := Function.update s.properties "name" s.nameStack.head?
    nameStack := s.nameStack.tail }

/-- `start_element` -/
def startElement (localName : String) : State :=
  let s := (if isItem localName then s.opened else s).saveContents
  if localName = "compound" then { s with headerPrinted := false } else s

/-- `end_element` -/
def endElement (localName : String) : State :=
  let s :=
    if localName = "scalar" then s.endScalar
    else if localName = "vector" then s.endVector
    else if localName = "compound" then s.endCompound
    else if localName = "value" then { s with vector := s.vector ++ [s.contents] }
    else { s with properties := Function.update s.properties localName (some s.contents) }
  (if isItem localName && s.inHistogram = 0 then s.restoreName else s).restoreContents

/-- `characters` -/
def characters (data : Text) : State :=
  if blank data then s else { s with contents := s.contents ++ data }

def step : Event → State
  | .startElement localName => s.startElement localName
  | .endElement localName => s.endElement localName
  | .characters data => s.characters data

def run (events : List Event) : State := events.foldl step s

end State

end Awb.Stats.ToText
