import Awb.Util.DeTab
import Awb.Util.SubstituteAll

/-! A benchmark file: eight items by position, and a section of commands that loses its indentation.
A result `none` stands for a call that does not return, be it for an exception or for a loop that
does not end. -/

namespace Awb

/-- `StringTrim` on the right. -/
def trimRight (trimChars : Text) (str : Text) : Text := str.rdropWhile (· ∈ trimChars)

def blanks : Text := [' ', '\t']

/-- `string::substr` from a position to the end, which throws behind the end. -/
def substrFrom (str : Text) (pos : ℕ) : Option Text :=
  if pos ≤ str.length then some (str.drop pos) else none

/-- `StringRemoveCRLF`. -/
def stringRemoveCRLF (str : Text) : Option Text := do
  let out ← stringSubstituteAll (str.length + 1) str ['\n'] []
  stringSubstituteAll (out.length + 1) out ['\r'] []

/-- One `fgets` into a buffer of some size: what it reads, and what is left of the file. -/
def fgets (size : ℕ) (file : Text) : Text × Text :=
  file.splitAt (min (file.idxOf '\n' + 1) (size - 1))

/-- What one `fgets` after the other reads. -/
def buffers (size : ℕ) : ℕ → Text → List Text
  | 0, _ => []
  | _ + 1, [] => []
  | n + 1, file => (fgets size file).1 :: buffers size n (fgets size file).2

structure Benchmark where
  name : Text := []
  fileName : Text := []
  desc : Text := []
  feederType : Text := []
  setupFile : Text := []
  setupArgs : Text := []
  generalFlags : Text := []
  feederFlags : Text := []
  systemFlags : Text := []
  regionNumber : ℤ := 0
  commandList : List Text := []
  deriving DecidableEq, Repr

namespace Benchmark

/-- What `Parse` takes from its surroundings: the name of the file and two directories. -/
structure Source where
  benchmarkFileName : Text
  benchmarkDir : Text
  configDir : Text
  deriving DecidableEq, Repr

/-- The match of `_r[0-9]*$` in a file name. -/
def regionSuffix (fileName : Text) : Text :=
  if ['_', 'r'].isSuffixOf (fileName.rdropWhile Char.isDigit) then
    ['_', 'r'] ++ fileName.rtakeWhile Char.isDigit
  else []

/-- `atol` of the number in the suffix, assigned to an `int`. -/
def suffixNumber (suffix : Text) : ℤ :=
  sizeToInt (min (Nat.ofDigitChars 10 (suffix.drop 2) 0) (2 ^ 63 - 1))

/-- A line as it is in the buffer, up to the first null character. -/
def bufferLine (suffix buffer : Text) : Option Text := do
  let line ← stringRemoveCRLF (buffer.takeWhile (· ≠ '\x00'))
  stringSubstituteAll (line.length + 1) line "%R".toList suffix

/-! ### The items -/

/-- A line without the encapsulation of a list. -/
def itemLine (suffix buffer : Text) : Option Text :=
  (bufferLine suffix buffer).map fun line =>
    trimRight (blanks ++ ['\x7d']) (trimLeft (blanks ++ ['\x7b']) line)

def isHeaderLine (line : Text) : Prop :=
  trimRight (blanks ++ ['\x7b']) (stringTrim line) = "BmAdd".toList

instance (line : Text) : Decidable (isHeaderLine line) := by unfold isHeaderLine; infer_instance

/-- The setup script and its arguments, before the variables are substituted. -/
def setupParts (suffix : Text) (regionNumber : ℤ) (line : Text) : Text × Text :=
  let parts :=
    match line.findIdx? (· ∈ blanks) with
    | none => (line, [])
    | some wPos => (line.take wPos, trimLeft blanks (line.drop wPos))
  if suffix = [] then parts
  else (parts.1, parts.2 ++ " --region ".toList ++ (toString regionNumber).toList)

/-- `--regions *[0-9]* *`, replaced by nothing. -/
def dropRegions (line : Text) : Text :=
  match Substitution.cutAt "--regions".toList line with
  | none => line
  | some (before, after) =>
    before ++ ((after.dropWhile (· = ' ')).dropWhile Char.isDigit).dropWhile (· = ' ')

/-- `--queryregions *`, replaced by nothing. -/
def dropQueryRegions (line : Text) : Text :=
  match Substitution.cutAt "--queryregions".toList line with
  | none => line
  | some (before, after) => before ++ after.dropWhile (· = ' ')

/-- The item with a number. -/
def setItem (source : Source) (suffix : Text) (fuel itemNumber : ℕ) (line : Text)
    (b : Benchmark) : Option Benchmark :=
  match itemNumber with
  | 0 => some { b with name := line }
  | 1 => some { b with fileName := line }
  | 2 => some { b with desc := line }
  | 3 => some { b with feederType := line }
  | 4 => do
    let (setupFile, args) := setupParts suffix b.regionNumber line
    let args ← substituteVariables fuel source.benchmarkDir source.configDir args
    return { b with setupFile := setupFile, setupArgs := args }
  | 5 => some { b with generalFlags := dropQueryRegions (dropRegions line) }
  | 6 => some { b with feederFlags := line }
  | 7 => some { b with systemFlags := line }
  | _ => some b

/-- Where the parser stands: the next item, the buffer, and what the file still has. -/
structure Reading where
  benchmark : Benchmark
  itemNumber : ℕ
  cfgBuf : Text
  rest : List Text
  deriving DecidableEq, Repr

/-- The loop over the items. -/
def readItems (source : Source) (suffix : Text) (fuel : ℕ) (itemNumber : ℕ) (cfgBuf : Text)
    (b : Benchmark) : List Text → Option Reading
  | [] => some ⟨b, itemNumber, cfgBuf, []⟩
  | buffer :: rest =>
    if itemNumber < 8 then do
      let line ← itemLine suffix buffer
      if isHeaderLine line then
        readItems source suffix fuel itemNumber buffer b rest
      else
        let b ← setItem source suffix fuel itemNumber line b
        readItems source suffix fuel (itemNumber + 1) buffer b rest
    else some ⟨b, itemNumber, cfgBuf, buffer :: rest⟩

/-! ### The commands -/

/-- How far the lines of the section are indented. -/
structure Indentation where
  cmdsIndent : ℕ := 0
  indent : ℕ := 0
  indentSet : Bool := false
  deriving DecidableEq, Repr

/-- A line without its indentation, or another text without its blanks. -/
def unindent (indent : ℕ) (origLine line : Text) : Option Text :=
  if origLine ≠ [] ∧ stringTrim (origLine.take indent) = [] then substrFrom origLine indent
  else some (trimLeft blanks line)

/-- What a line of the section is. -/
inductive CommandLine where
  | ends
  | begins (i : Indentation)
  | command (line : Text)
  deriving DecidableEq, Repr

/-- The indentation that the first brace sets. -/
def beginIndentation (origLine : Text) : Indentation :=
  match origLine.idxOf? '\x7b' with
  | none => ⟨0, 0, true⟩
  | some cmdsIndent => ⟨cmdsIndent, cmdsIndent + 2, true⟩

def commandLine (i : Indentation) (origLine : Text) : Option CommandLine :=
  let line := stringTrim origLine
  if line = ['\x7b', '\x7d'] then some .ends
  else if i.indentSet = false ∧ line = ['\x7b'] then some (.begins (beginIndentation origLine))
  else do
    let myLine ← unindent i.cmdsIndent origLine origLine
    if trimRight blanks myLine = ['\x7d'] then return .ends
    let line ← unindent i.indent origLine line
    return .command (trimRight blanks line)

/-- A line of the section as it is read. -/
def origLine (suffix buffer : Text) : Option Text := do
  let line ← bufferLine suffix buffer
  stringDeTab 8 line

/-- The loop over the commands. -/
def readCommands (suffix : Text) (i : Indentation) (b : Benchmark) (cfgBuf : Text) :
    List Text → Option (Benchmark × Text × List Text)
  | [] => some (b, cfgBuf, [])
  | buffer :: rest => do
    let line ← origLine suffix buffer
    match ← commandLine i line with
    | .ends => return (b, buffer, rest)
    | .begins i => readCommands suffix i b buffer rest
    | .command line =>
      readCommands suffix i { b with commandList := b.commandList ++ [line] } buffer rest

/-- The line behind the section. At the end of the file the last buffer stays. -/
def endRecognized (cfgBuf : Text) (rest : List Text) : Option Bool := do
  let line ← stringRemoveCRLF ((rest.head?.getD cfgBuf).takeWhile (· ≠ '\x00'))
  return stringTrim line = ['\x7d']

/-- The region that the file name asks for. -/
def selectRegion (suffix : Text) (b : Benchmark) : Benchmark :=
  if suffix = [] then b else { b with regionNumber := suffixNumber suffix }

def parseFile (source : Source) (suffix : Text) (fuel : ℕ) (file : Text) (b : Benchmark) :
    Option (Bool × Benchmark) := do
  let items ← readItems source suffix fuel 0 [] b (buffers 4096 file.length file)
  let (b, cfgBuf, rest) ← readCommands suffix {} items.benchmark items.cfgBuf items.rest
  if items.itemNumber ≠ 8 then
    return (false, b)
  let recognized ← endRecognized cfgBuf rest
  return (recognized, b)

/-- `Parse`, with the text of the file it opens. -/
def parse (source : Source) (fuel : ℕ) (file : Text) (b : Benchmark) :
    Option (Bool × Benchmark) :=
  let suffix := regionSuffix source.benchmarkFileName
  parseFile source suffix fuel file (b.selectRegion suffix)

end Benchmark
end Awb
