import Awb.Inifile.Lines
import Mathlib.Data.List.AList

/-! The reader `IniFile` of `inifile.cpp`. An item that is already there keeps its value. -/

namespace Awb.Inifile

abbrev NameMap := AList fun _ : Text => Text

abbrev GroupMap := AList fun _ : Text => NameMap

/-- What the reader complains about and passes over. -/
inductive Warning where
  | outsideGroup (line : Text)
  | unclassified (line : Text)
  deriving DecidableEq, Repr

namespace Cxx

/-- What the regular expression library sees of a string. -/
def cText (line : Text) : Text := line.takeWhile (· ≠ '\x00')

/-- `IncludeRegexp`; the longest match takes a second quote into the name. -/
def includeName (line : Text) : Option Text :=
  match matchIncludeStart line with
  | none => none
  | some rest =>
    let name := rest.takeWhile (· ≠ '"')
    match rest.dropWhile (· ≠ '"') with
    | '"' :: '"' :: _ => some (name ++ ['"'])
    | '"' :: _ => if name ≠ [] ∧ name.getLast?.all (!isBlank ·) then some name else none
    | _ => none

/-- `CommentRegexp`, which also takes blank lines. -/
def matchComment (line : Text) : Bool :=
  let rest := line.dropWhile isBlank
  rest = [] || rest.head? = some '#'

/-- A line against the regular expressions, in the order of `Parse`; an empty match is none. -/
def lineKind (line : Text) : LineKind :=
  let str := cText line
  match includeName str with
  | some name => .includes name
  | none =>
    if line = [] ∨ str ≠ [] ∧ matchComment str then .comment
    else match matchGroup str with
      | some name => .group name
      | none => match matchItem str with
        | some (name, value) => .item name value
        | none => .garbage

structure State where
  groupMap : GroupMap
  currentNameMap : Option Text := none
  warnings : List Warning := []

/-- `insert` of a group, which leaves one that is there alone. -/
def insertGroup (groupMap : GroupMap) (group : Text) : GroupMap :=
  if group ∈ groupMap then groupMap else groupMap.insert group ∅

/-- `insert` of an item, which leaves one that is there alone. -/
def insertItem (groupMap : GroupMap) (group name value : Text) : GroupMap :=
  let names := (groupMap.lookup group).getD ∅
  if name ∈ names then groupMap else groupMap.insert group (names.insert name value)

def parseLine (parse : Text → GroupMap → Option (GroupMap × List Warning)) (s : State)
    (line : Text) : Option State :=
  match lineKind line with
  | .includes name => do
    let (groupMap, warnings) ← parse name s.groupMap
    return { s with groupMap, warnings := s.warnings ++ warnings }
  | .comment | .blank => some s
  | .group name =>
    some { s with groupMap := insertGroup s.groupMap name, currentNameMap := some name }
  | .item name value => match s.currentNameMap with
    | none => some { s with warnings := s.warnings ++ [.outsideGroup line] }
    | some group => some { s with groupMap := insertItem s.groupMap group name value }
  | .garbage => some { s with warnings := s.warnings ++ [.unclassified line] }

variable {Dir : Type*} (fs : FileSystem Dir)

/-- The directory of a file that is being parsed, where its includes are looked up. -/
def enter (dir : Dir) (fileName : Text) : Dir := (fs.chdir dir (fileHead fileName)).getD dir

/-- `Parse`, with a bound for the depth of includes. -/
def parse : Nat → Dir → Text → GroupMap → Option (GroupMap × List Warning)
  | 0, _, _, _ => none
  | depth + 1, dir, fileName, groupMap => do
    let text ← fs.read dir fileName
    let s ← ((rawLines text).map chomp).foldlM (parseLine (parse depth (enter fs dir fileName)))
      { groupMap }
    return (s.groupMap, s.warnings)

/-- `Get`, without a default. -/
def get (groupMap : GroupMap) (group item : Text) : Option Text :=
  (groupMap.lookup group).bind fun names => names.lookup item

end Cxx

end Awb.Inifile
