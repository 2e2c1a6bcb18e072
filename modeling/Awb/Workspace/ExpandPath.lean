import Awb.Builder.Paths

/-! The search path of a workspace, as `Workspace::ExpandPath` and as `Asim::Workspace` expand it:
variables are substituted, option groups are multiplied out and relative paths are prefixed. Both
loops over variables may run for ever, so they get fuel. -/

namespace Awb

/-- The configuration of a workspace that a search path depends on. -/
structure WorkspaceConfig where
  vars : Text → Option Text
  searchPath : Text
  rootDir : Text

/-- What `glob` knows: the home directory for `~user`, and the directories that match a pattern. -/
structure Globber where
  home : Text → Option Text
  directories : Text → List Text

/-- The leftmost `$` that begins a match, with the text before it, its name and what follows. -/
def leftmostRef (refAt : Text → Option (Text × Text)) : Text → Option (Text × Text × Text)
  | [] => none
  | c :: cs =>
    match if c = '$' then refAt cs else none with
    | some (name, after) => some ([], name, after)
    | none => (leftmostRef refAt cs).map fun (before, name, after) => (c :: before, name, after)

/-- A name up to the first closing character. -/
def refName (closes : Char → Bool) (cs : Text) : Option (Text × Text) :=
  let name := cs.takeWhile fun c => !closes c
  match name, cs.drop name.length with
  | _ :: _, _ :: after => some (name, after)
  | _, _ => none

/-- `\$[{(]([^})]+)[})]`, behind the `$`. -/
def varMatch : Text → Option (Text × Text)
  | '{' :: cs | '(' :: cs => refName (fun c => c = '}' || c = ')') cs
  | _ => none

/-- `[{]([^}]*)[}]`. -/
def optionMatch (path : Text) : Option (Text × Text × Text) :=
  let before := path.takeWhile (· ≠ '{')
  match path.drop before.length with
  | _ :: rest =>
    if rest.contains '}' then
      some (before, rest.takeWhile (· ≠ '}'), (rest.dropWhile (· ≠ '}')).drop 1)
    else none
  | [] => none

namespace WorkspaceConfig
def getConfVar (w : WorkspaceConfig) (varName : Text) : Text :=
  (w.vars varName).getD ("__".toList ++ varName ++ "_undefined__".toList)

/-- The loop over the variables of a path. -/
def expandVars (w : WorkspaceConfig) : Nat → Text → Option Text
  | 0, _ => none
  | fuel + 1, path =>
    match leftmostRef varMatch path with
    | none => some path
    | some (before, name, after) => w.expandVars fuel (before ++ w.getConfVar name ++ after)

def expandTildeUser (globber : Globber) (original : Text) : Text :=
  if original.head? = some '~' then
    match globber.home (original.takeWhile (· ≠ '/')) with
    | some dir => dir ++ original.dropWhile (· ≠ '/')
    | none => original
  else original

/-- Rounds 2 and 3: `~user`, relative paths, and globs. -/
def finish (globber : Globber) (baseDir : Text) (paths : List Text) : List Text :=
  paths.flatMap fun path =>
    let path := expandTildeUser globber path
    let path := if baseDir ≠ [] && !isAbsolutePath path then baseDir ++ '/' :: path else path
    if path.any fun c => c = '*' || c = '?' then globber.directories path else [path]

/-- Round 1 for one path; the cross product is expanded by a recursive call. -/
def round1 (w : WorkspaceConfig) (expand : List Text → Option (List Text)) (fuel : Nat)
    (path : Text) : Option (List Text) := do
  let path ← w.expandVars fuel path
  match optionMatch path with
  | none => some [path]
  | some (before, content, after) =>
    expand ((splitString [','] content).map fun option => before ++ option ++ after)

def expandPath (w : WorkspaceConfig) (globber : Globber) :
    Nat → List Text → Text → Option (List Text)
  | 0, _, _ => none
  | fuel + 1, pathList, baseDir => do
    let round1OutPathList ←
      pathList.mapM
        (w.round1 (fun localPathList => w.expandPath globber fuel localPathList []) fuel)
    some (finish globber baseDir round1OutPathList.flatten)

end WorkspaceConfig

/-! ### Perl -/

/-- `\w`. -/
def isWordChar (c : Char) : Bool := c.isAlphanum || c = '_'

/-- `\$\((\w*)\)`, behind the `$`. -/
def perlRef : Text → Option (Text × Text)
  | '(' :: cs =>
    let name := cs.takeWhile isWordChar
    match cs.drop name.length with
    | ')' :: after => some (name, after)
    | _ => none
  | _ => none

/-- `split`, which drops empty parts at the end. -/
def perlSplit (separator : Char) (s : Text) : List Text :=
  (s.splitOn separator).rdropWhile List.isEmpty

/-- Of parts that are joined, empty ones at the end are not found again. -/
theorem perlSplit_join {separator : Char} {l : List Text} (h : ∀ part ∈ l, separator ∉ part) :
    perlSplit separator ([separator].intercalate l) = l.rdropWhile List.isEmpty := by
  by_cases hl : l = []
  · subst hl
    rfl
  · rw [perlSplit, List.splitOn_intercalate separator h hl]

/-- `\{(.*)\}`: up to the last `}`. -/
def crossMatch (path : Text) : Option (Text × Text × Text) :=
  let before := path.takeWhile (· ≠ '{')
  match path.drop before.length with
  | _ :: rest =>
    if rest.contains '}' then
      some (before, (rest.rdropWhile (· ≠ '}')).dropLast, rest.rtakeWhile (· ≠ '}'))
    else none
  | [] => none

/-- `_expand_cross`, which returns in the first iteration of its loop. -/
def expandCross (path : List Text) : List Text :=
  path.flatMap fun i =>
    match crossMatch i with
    | some (before, content, after) => (perlSplit ',' content).map fun j => before ++ j ++ after
    | none => [i]

namespace WorkspaceConfig
/-- `_substitute`; an undefined variable empties the string. -/
def substitute (w : WorkspaceConfig) : Nat → Text → Option Text
  | 0, _ => none
  | fuel + 1, s =>
    match leftmostRef perlRef s with
    | none => some s
    | some (before, varname, after) =>
      match w.vars varname with
      | some var => w.substitute fuel (before ++ var ++ after)
      | none => w.substitute fuel []

/-- `_rehash_path` up to the test whether a directory exists. -/
def rehashPath (w : WorkspaceConfig) (fuel : Nat) (path : List Text) : Option (List Text) := do
  let path := if path.isEmpty then perlSplit ':' w.searchPath else path
  let epath ← path.mapM (w.substitute fuel)
  let epath := epath.flatMap fun d => expandCross [d]
  some (epath.map fun i => if isAbsolutePath i then i else w.rootDir ++ '/' :: i)

end WorkspaceConfig
end Awb
