import Mathlib.Data.List.DropRight
import Mathlib.Tactic

/-! The string and file name functions of `util.cpp` that the model builder uses. -/

namespace Awb

/-- A C++ string. -/
abbrev Text := List Char

/-- The lines of a written file, each ended by a newline. -/
def unlines (lines : List Text) : Text := lines.flatMap (· ++ ['\n'])

/-- `SplitString`, read by its iterator: like a split at every separator, but there are no parts
of an empty string and only one of a single separator. -/
def splitString (separators : Text) (str : Text) : List Text :=
  match str with
  | [] => []
  | [c] => if c ∈ separators then [[]] else [[c]]
  | _ => str.splitOnP (· ∈ separators)

/-- `StringTrim` on the left. -/
def trimLeft (trimChars : Text) (str : Text) : Text := str.dropWhile (· ∈ trimChars)

/-- `StringTrim` on both sides. -/
def stringTrim (str : Text) : Text :=
  (trimLeft [' ', '\t'] (trimLeft [' ', '\t'] str).reverse).reverse

def stringToUpper (str : Text) : Text := str.map Char.toUpper

def isAbsolutePath (path : Text) : Bool := path.head? = some '/'

def fileJoin (name1 name2 : Text) : Text :=
  if isAbsolutePath name2 || name1.isEmpty then name2
  else if name1.getLast? = some '/' then name1 ++ name2
  else name1 ++ '/' :: name2

/-- The part behind the last separator. -/
def fileTail (fileName : Text) : Text := fileName.rtakeWhile (· ≠ '/')

/-- The part before the last separator, or everything. -/
def fileHead (fileName : Text) : Text :=
  if '/' ∈ fileName then (fileName.rdropWhile (· ≠ '/')).dropLast else fileName

def fileExtension (fileName : Text) : Text :=
  let tail := fileTail fileName
  if '.' ∈ tail then '.' :: tail.rtakeWhile (· ≠ '.') else []

def fileRoot (fileName : Text) : Text :=
  fileName.take (fileName.length - (fileExtension fileName).length)

/-- The `dirname` of the C library. -/
def fileDirName (fileName : Text) : Text :=
  let path := fileName.rdropWhile (· = '/')
  if path = [] then (if fileName = [] then ['.'] else ['/'])
  else if '/' ∈ path then
    let dir := (path.rdropWhile (· ≠ '/')).rdropWhile (· = '/')
    if dir = [] then ['/'] else dir
  else ['.']

/-- What is left of two lists without their common beginning. -/
def stripCommon : List Text → List Text → List Text × List Text
  | a :: as, b :: bs => if a = b then stripCommon as bs else (a :: as, b :: bs)
  | as, bs => (as, bs)

/-- An `int` that a size is assigned to. -/
def sizeToInt (size : ℕ) : ℤ := (size : ℤ).bmod (2 ^ 32)

/-- `FileRelativePath`, from a directory to a file. An `int` counts the steps to the common
ancestor. -/
def fileRelativePath (path1 path2 : Text) : Text :=
  if isAbsolutePath path1 && isAbsolutePath path2 then
    let (up, rest) := stripCommon ((splitString ['/'] path1).filter (· ≠ []))
      ((splitString ['/'] path2).filter (· ≠ []))
    rest.foldl fileJoin ((fileJoin · ['.', '.'])^[(sizeToInt up.length).toNat] [])
  else path2

/-- The components of `CanonicalFilename`, `none` if there are too many `..` and it exits. -/
def canonicalParts (absolute : Bool) : List Text → List Text → Option (List Text)
  | path, [] => some path
  | path, dir :: rest =>
    if dir = ['.'] then canonicalParts absolute path rest
    else if dir = ['.', '.'] then
      if absolute then canonicalParts absolute (if path.length > 1 then path.dropLast else path) rest
      else if path = [] then none
      else canonicalParts absolute path.dropLast rest
    else canonicalParts absolute (path ++ [dir]) rest

/-- `CanonicalFilename`, after the expansion of a home directory. -/
def canonicalFilename (expandTilde : Text → Text) (original : Text) : Option Text :=
  let canonical := expandTilde original
  (canonicalParts (isAbsolutePath canonical) [] (splitString ['/'] canonical)).map
    (['/'].intercalate ·)

/-- Where `StringLineWrap` cuts a text that is too long: at the last blank in reach, else at the
first one, else behind the end. -/
def wrapIndex (maxLength : Nat) (input : Text) : Nat :=
  let reach := if maxLength = 0 then input else input.take maxLength
  match reach.reverse.idxOf? ' ' with
  | some i => reach.length - 1 - i
  | none => input.idxOf ' '

/-- The lines of `StringLineWrap`. -/
def wrapLines (maxLength : Nat) : Nat → Text → List Text
  | 0, _ => []
  | _ + 1, [] => []
  | fuel + 1, input =>
    if input.length > maxLength then
      let spaceIndex := wrapIndex maxLength input
      input.take (spaceIndex + 1) :: wrapLines maxLength fuel (input.drop (spaceIndex + 1))
    else [input]

def stringLineWrap (str : Text) (maxLength : Nat) (postfixText prefixText : Text)
    (wrapFirstLine : Bool) : Text :=
  let lineBreak := postfixText ++ '\n' :: prefixText
  match wrapLines maxLength str.length str with
  | [] => []
  | line :: lines =>
    (if wrapFirstLine then lineBreak ++ line else line) ++ lines.flatMap (lineBreak ++ ·)

end Awb
