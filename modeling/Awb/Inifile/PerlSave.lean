import Awb.Inifile.PerlInifile

/-! The object `Asim::Inifile` after `open`: the calls that change it, and `save`, which writes its
data over the lines of the old file. -/

namespace Awb.Inifile.Perl

structure Object where
  filename : Option Text := none
  data : Data := ∅
  modified : Bool := false

/-- The order in which `keys` lists a hash. -/
structure KeyOrder where
  list : List Text → List Text
  perm : ∀ keys, (list keys).Perm keys

section calls
variable (order : KeyOrder)

def getItemlist (d : Data) (group : Text) : List Text := order.list (d.items group).keys

def getGrouplist (d : Data) : List Text := order.list d.keys

/-- The calls that change the data. -/
inductive Call where
  | put (group item value : Text)
  | removeItem (group item : Text)
  | removeGroup (group : Text)
  | copyGroup (oldgroup newgroup : Text)
  | flush
  deriving DecidableEq, Repr

namespace Object

def put (f : Object) (group item value : Text) : Object :=
  let data := f.data.vivify group
  if data.value group item = some value then { f with data }
  else { f with data := data.set group item (some value), modified := true }

/-- `remove` of an item, which stays without a value. -/
def removeItem (f : Object) (group item : Text) : Object :=
  if falsy group then f else { f with data := f.data.set group item none, modified := true }

/-- `remove` of a group, which stays without items. -/
def removeGroup (f : Object) (group : Text) : Object :=
  if falsy group then f else { f with data := f.data.insert group none, modified := true }

/-- `put` of what `get` returns; it does nothing if that is undefined. -/
def copyItem (oldgroup newgroup : Text) (f : Object) (item : Text) : Object :=
  match get f.data oldgroup item with
  | none => f
  | some value => f.put newgroup item value

def copyGroup (f : Object) (oldgroup newgroup : Text) : Object :=
  let f : Object := { f with data := f.data.vivify oldgroup }
  (getItemlist order f.data oldgroup).foldl (copyItem oldgroup newgroup) f

def flush (f : Object) : Object := { f with data := ∅, modified := true }

def call (f : Object) : Call → Object
  | .put group item value => f.put group item value
  | .removeItem group item => f.removeItem group item
  | .removeGroup group => f.removeGroup group
  | .copyGroup oldgroup newgroup => f.copyGroup order oldgroup newgroup
  | .flush => f.flush

end Object

end calls

section save
variable (order : KeyOrder)

/-- The loop of `save`: what was printed, and `@comments`, which are printed later. -/
structure SaveState where
  data : Data
  printed : List Text := []
  curgroup : Option Text := none
  comments : List Text := []
  groupsDone : List Text := []
  itemsDone : List Text := []

def groupLine (group : Text) : Text := '[' :: group ++ [']']

def itemLine (item value : Text) : Text := item ++ '=' :: value

/-- An item with what `get` returns; nothing if that is undefined. -/
def newItemLine (d : Data) (group item : Text) : Text := itemLine item ((get d group item).getD [])

/-- Finishes off the items of the current group that were not there. -/
def finishGroup (s : SaveState) : SaveState :=
  match s.curgroup with
  | none => s
  | some group =>
    let data := s.data.vivify group
    let items := (getItemlist order data group).filter (!s.itemsDone.contains ·)
    { s with data, printed := s.printed ++ items.map (newItemLine data group) }

def spillComments (s : SaveState) : SaveState :=
  { s with printed := s.printed ++ s.comments, comments := [] }

def startGroup (s : SaveState) (group : Text) : SaveState :=
  { s with
    printed := s.printed ++ if s.data.hasGroup group then [groupLine group] else []
    curgroup := some group
    groupsDone := group :: s.groupsDone
    itemsDone := [] }

/-- An item is printed with its value, unless it has none any more. -/
def printItem (s : SaveState) (item : Text) : SaveState :=
  { s with
    printed := s.printed ++ ((s.data.value (s.curgroup.getD []) item).map (itemLine item)).toList
    itemsDone := item :: s.itemsDone }

/-- Keeps a blank line, unless the last line kept is one. -/
def saveBlank (s : SaveState) : SaveState :=
  if s.comments.getLast? = some [] then s else { s with comments := s.comments ++ [[]] }

/-- A line of the old file; unlike `open` this chops the line, and takes a line that ends in a
backslash for a line. -/
def saveLine (s : SaveState) (raw : Text) : Option SaveState :=
  let line := chop raw
  match lineKind line with
  | .group name => some (startGroup (spillComments (finishGroup order s)) name)
  | .item name _ => some (printItem (spillComments s) name)
  | .includes _ => some s
  | .comment => some { s with comments := s.comments ++ [line] }
  | .blank => some (saveBlank s)
  | .garbage => none

/-- The end of the old file; comments are lost if it has no group. -/
def leftover (s : SaveState) : SaveState :=
  match s.curgroup with
  | none => s
  | some _ => spillComments (finishGroup order s)

/-- Spills a group that was not in the old file. -/
def newGroup (s : SaveState) (group : Text) : SaveState :=
  if s.groupsDone.contains group then s
  else
    let data := s.data.vivify group
    { s with
      data
      printed := s.printed ++ [] :: groupLine group ::
        (getItemlist order data group).map (newItemLine data group) }

/-- What `save` prints, and the data after it; without an old file it starts at `NEWFILE`. -/
def saveData (data : Data) (old : Option Text) : Option SaveState := do
  let s : SaveState ← match old with
    | none => some { data }
    | some text => ((rawLines text).foldlM (saveLine order) { data }).map (leftover order)
  return (getGrouplist order s.data).foldl (newGroup order) s

variable {Dir : Type*} (fs : FileSystem Dir)

/-- The files that can be opened for update, and those that pass the checks before `move`. -/
structure Access (Dir : Type*) where
  update : Dir → Text → Bool
  replace : Dir → Text → Bool

variable (access : Access Dir)

/-- An object of a file, which is opened with a bound for the depth of includes. -/
def new (dir : Dir) (depth : Nat) (file : Text) : Option Object :=
  (openFile fs dir depth file ∅).map fun data => { filename := some file, data }

variable [DecidableEq Dir]

def write (dir : Dir) (file text : Text) : FileSystem Dir :=
  { fs with read := fun dir' file' =>
      if dir' = dir ∧ file' = file then some text else fs.read dir' file' }

/-- `CORE::open(OLDINI, "+< $oldfile")` -/
def readOld (dir : Dir) (file : Text) : Option Text :=
  if access.update dir (openName file) then readFile fs dir file else none

/-- The file that `save` writes to. -/
def Object.target (f : Object) (file : Option Text) : Option Text :=
  (file.filter (!falsy ·)).or (f.filename.filter (!falsy ·))

def save (dir : Dir) (f : Object) (file : Option Text) : Option (FileSystem Dir × Object) :=
  (f.target file).bind fun file =>
    -- an unneeded save
    if f.modified = false ∧ f.filename = some file then some (fs, f)
    else
      let old := f.filename.bind (readOld fs access dir)
      (saveData order f.data old).bind fun s =>
        let saved : Object := { filename := some file, data := s.data, modified := false }
        if old.isSome ∧ f.filename = some file then
          some (write fs dir (openName file) (unlines s.printed), saved)
        else if access.replace dir file then
          some (write fs dir file (unlines s.printed), saved)
        else none

end save

end Awb.Inifile.Perl
