import Awb.Apm.ModelParse
import Awb.Util.Words

/-! `Module::Parse`: the directives between `%AWB_START` and `%AWB_END` in a `.awb` file. -/

namespace Awb.Apm
open Inifile.Cxx (cText)

/-- The directives with a list of words. -/
inductive WordList where
  | requires
  | publicFiles
  | privateFiles
  | library
  | includeFiles
  | syslibrary
  | sysinclude
  | makefile
  | conscript
  deriving DecidableEq, Repr

inductive Directive where
  | name
  | desc
  | provides
  | words (list : WordList)
  | attributes
  | ifileOpt
  | param
  | target
  deriving DecidableEq, Repr

namespace WordList

def keyword : WordList → Text
  | requires => "%requires".toList
  | publicFiles => "%public".toList
  | privateFiles => "%private".toList
  | library => "%library".toList
  | includeFiles => "%include".toList
  | syslibrary => "%syslibrary".toList
  | sysinclude => "%sysinclude".toList
  | makefile => "%makefile".toList
  | conscript => "%conscript".toList

def get (m : ParsedModule) : WordList → List Text
  | requires => m.requiresList
  | publicFiles => m.publicFileList
  | privateFiles => m.privateFileList
  | library => m.libraryFileList
  | includeFiles => m.includeFileList
  | syslibrary => m.sysLibraryFileList
  | sysinclude => m.sysIncludeFileList
  | makefile => m.makefileList
  | conscript => m.conscriptList

/-- Words behind those in the list. -/
def add (m : ParsedModule) (words : List Text) : WordList → ParsedModule
  | requires => { m with requiresList := m.requiresList ++ words }
  | publicFiles => { m with publicFileList := m.publicFileList ++ words }
  | privateFiles => { m with privateFileList := m.privateFileList ++ words }
  | library => { m with libraryFileList := m.libraryFileList ++ words }
  | includeFiles => { m with includeFileList := m.includeFileList ++ words }
  | syslibrary => { m with sysLibraryFileList := m.sysLibraryFileList ++ words }
  | sysinclude => { m with sysIncludeFileList := m.sysIncludeFileList ++ words }
  | makefile => { m with makefileList := m.makefileList ++ words }
  | conscript => { m with conscriptList := m.conscriptList ++ words }

theorem get_add (m : ParsedModule) (words : List Text) (l l' : WordList) :
    l.get (l'.add m words) = if l = l' then l.get m ++ words else l.get m := by
  cases l <;> cases l' <;> rfl

end WordList

namespace Directive

def keywords : Directive → List Text
  | name => ["%name".toList]
  | desc => ["%desc".toList]
  | provides => ["%provides".toList]
  | words list => [list.keyword]
  | attributes => ["%attributes".toList]
  | ifileOpt => ["%ifile_opt".toList]
  | param => ["%param".toList, "%export".toList, "%const".toList]
  | target => ["%target".toList]

/-- The directives in the order in which `Parse` looks for them. -/
def chain : List Directive :=
  [name, desc, provides, words .requires, attributes, words .publicFiles, words .privateFiles,
    words .library, words .includeFiles, ifileOpt, words .syslibrary, words .sysinclude, param,
    words .makefile, words .conscript, target]

end Directive

/-! ### Regular expressions -/

/-- `[[:space:]]+([^[:space:]].+[^[:space:]])` behind a keyword. What it captures has at least three
characters. -/
def argument (rest : Text) : Option Text :=
  let captured := trim inSpaceClass rest
  if rest.head?.any inSpaceClass && 3 ≤ captured.length then some captured else none

/-- `[[:space:]]+([^[:space:]]+)` behind a keyword. -/
def firstWord (rest : Text) : Option Text :=
  let captured := (rest.dropWhile inSpaceClass).takeWhile (!inSpaceClass ·)
  if rest.head?.any inSpaceClass && captured ≠ [] then some captured else none

namespace Directive

/-- What a directive captures behind one of its keywords at the beginning of a text; a parameter
captures the whole text. -/
def captureAt (d : Directive) (text : Text) : Option Text :=
  d.keywords.findSome? fun keyword =>
    if keyword.isPrefixOf text then
      let rest := text.drop keyword.length
      match d with
      | provides => firstWord rest
      | param => if rest.head?.any inSpaceClass then some text else none
      | _ => argument rest
    else none

/-- What a directive captures at the first place where it matches. -/
def capture (d : Directive) : Text → Option Text
  | [] => none
  | c :: text =>
    match d.captureAt (c :: text) with
    | some captured => some captured
    | none => capture d text

end Directive

/-- The directive that is obeyed in a line, and what it captures. -/
def matchLine (line : Text) : Option (Directive × Text) :=
  Directive.chain.findSome? fun d => (d.capture (cText line)).map (d, ·)

/-- The words of `SplitString` that are not empty. -/
def splitWords (captured : Text) : List Text :=
  (splitString [' ', '\t'] captured).filter (· ≠ [])

section Parse
variable (parseParam : Text → Option Param)

/-- One branch of `Parse`, and whether it goes on. -/
def obey (m : ParsedModule) (captured : Text) : Directive → Bool × ParsedModule
  | .name =>
    if m.name ≠ [] then (false, m)
    else (true, { m with name := captured, attributeList := m.attributeList ++ [captured] })
  | .desc => if m.desc ≠ [] then (false, m) else (true, { m with desc := captured })
  | .provides => if m.provides ≠ [] then (false, m) else (true, { m with provides := captured })
  | .words list => (true, list.add m (splitWords captured))
  | .attributes => (true, { m with attributeList := m.attributeList ++ [captured] })
  | .ifileOpt => (true, { m with includeOptionsList := m.includeOptionsList ++ [captured] })
  | .param =>
    match parseParam captured with
    | some param => (true, { m with paramList := m.paramList ++ [param] })
    | none => (false, m)
  | .target => (true, { m with targetList := m.targetList ++ [captured] })

/-- A line of the region; one without a directive is a comment. -/
def readLine (m : ParsedModule) (line : Text) : Bool × ParsedModule :=
  match matchLine line with
  | some (d, captured) => obey parseParam m captured d
  | none => (true, m)

def hasStart (line : Text) : Bool := "%AWB_START".toList <:+: cText line

def hasEnd (line : Text) : Bool := "%AWB_END".toList <:+: cText line

/-- The loop over the lines. -/
def readLines : Bool → ParsedModule → List Text → Bool × ParsedModule
  | _, m, [] => (true, m)
  | inAwbRegion, m, line :: lines =>
    if hasStart line then
      if inAwbRegion then (false, m) else readLines true m lines
    else if hasEnd line then (inAwbRegion, m)
    else if !inAwbRegion then readLines false m lines
    else
      match readLine parseParam m line with
      | (true, m) => readLines true m lines
      | (false, m) => (false, m)

/-- A module before it is parsed. -/
def newModule : ParsedModule := { name := [], provides := [] }

/-- `Parse`, from where the file is open. -/
def parseModule (moduleFile : Text) : Bool × ParsedModule :=
  let (success, m) := readLines parseParam false newModule (getLines moduleFile)
  (success && m.provides ≠ [], m)

end Parse
end Awb.Apm
