import Awb.Lib.Descend
import Awb.Workspace.ExpandPath

/-! The files that `model-coverage` reads and what they refer to: experiments files name models,
models name submodels and modules, modules name their sources. -/

namespace Awb.Coverage

/-- `(.*)ext` at the beginning of a text: as much as possible before an extension. -/
def greedy (ext : Text) : Text → Option Text
  | [] => none
  | c :: cs =>
    match greedy ext cs with
    | some before => some (c :: before)
    | none => if ext.isPrefixOf (c :: cs) then some [] else none

/-- `File=(.*)ext`, at the first place where it matches. -/
def fileMatch (ext : Text) : Text → Option Text
  | [] => none
  | c :: cs =>
    match if "File=".toList.isPrefixOf (c :: cs) then greedy ext ((c :: cs).drop 5) else none with
    | some file => some file
    | none => fileMatch ext cs

/-- A line and those that continue it: a backslash at the end of what was read so far asks for
another line. At the end of the file there is none, and the backslashes are chopped off. -/
def logicalLines : Option Text → List Text → List Text
  | none, [] => []
  | some read, [] => [read.rdropWhile (· = '\\')]
  | read, line :: lines =>
    let whole := read.getD [] ++ line
    if whole.getLast? = some '\\' then logicalLines (some whole.dropLast) lines
    else whole :: logicalLines none lines

/-- The words of a line, as `split` without arguments gives them. -/
def words (line : Text) : List Text :=
  (line.splitOnP Char.isWhitespace).filter fun word => !word.isEmpty

/-- `m/^\s*(#.*)?$/`. -/
def isComment (line : Text) : Bool :=
  match line.dropWhile Char.isWhitespace with
  | [] => true
  | c :: _ => c = '#'

/-- Whether Perl takes a string for true. -/
def isTrue (text : Text) : Bool := text ≠ [] && text ≠ ['0']

/-- The lists of sources that `Asim::Module` reads from a module file. -/
structure ModuleFile where
  publics : List Text
  privates : List Text
  library : List Text

/-- The files of a workspace. What `Asim` and the file system answer is given: where the union
directory finds a name, the lines of a file, the declarations of a module, and the names that
`glob` and `find` list for a package. -/
structure Repository where
  rootdir : Text
  resolve : Text → Option Text
  lines : Text → List Text
  moduleFile : Text → Option ModuleFile
  isFile : Text → Bool
  packages : List Text
  globExperiments : Text → Text → Text → List Text
  findApm : Text → List Text
  findAwb : Text → List Text

def isApm (file : Text) : Bool := ".apm".toList.isSuffixOf file

def isAwb (file : Text) : Bool := ".awb".toList.isSuffixOf file

/-- A set is a list without repetitions. -/
abbrev setAdd (set : List Text) (element : Text) : List Text := Descend.addNew set element

def setInBnotA (mainlist itemlist : List Text) : List Text :=
  itemlist.filter fun item => !mainlist.contains item

namespace Repository
variable (r : Repository)

def resolveRelative (f : Text) : Option Text :=
  (r.resolve f).map fun filename =>
    let prefixText := r.rootdir ++ ['/']
    if prefixText.isPrefixOf filename then filename.drop prefixText.length else filename

/-- `if ( $file = ResolveRelative( ... ) )`. -/
def resolved (f : Text) : Option Text := (r.resolveRelative f).filter isTrue

def getApmsFromExp (expfile : Text) : List Text :=
  ((logicalLines none (r.lines expfile)).filter fun line => !isComment line).filterMap
    fun line => (words line)[1]?.bind r.resolved

/-- The files with an extension that the lines of a model name. -/
def filesFromApm (ext : Text) (apmfile : Text) : List Text :=
  (r.lines apmfile).filterMap fun line =>
    (fileMatch ext line).bind fun file => r.resolved (file ++ ext)

/-- The submodels that a model names itself. -/
def submodels (apmfile : Text) : List Text := r.filesFromApm ".apm".toList apmfile

/-- All models below a model. There is no test for a submodel that contains itself. -/
def getApmsFromApm (fuel : Nat) (apmfile : Text) : Option (List Text) :=
  Descend.descend r.submodels fuel apmfile

def getAwbsFromApm (apmfile : Text) : List Text :=
  (r.filesFromApm ".awb".toList apmfile).foldl setAdd []

/-- `m/(.*)\/.*/`: the directory of a file. -/
def directoryOf (file : Text) : Text :=
  if file.contains '/' then (file.rdropWhile (· ≠ '/')).dropLast else ['.']

def getSourcesFromAwb (awb : Text) : List Text :=
  match r.moduleFile awb with
  | some m =>
    ((m.publics ++ m.privates).map fun cfile => directoryOf awb ++ '/' :: cfile).filter r.isFile ++
      m.library.filterMap r.resolved
  | none => []

end Repository

end Awb.Coverage
