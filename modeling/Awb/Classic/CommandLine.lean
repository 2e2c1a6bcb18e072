import Awb.Classic.SchedulerLoop

/-! The partitioning of the command line: `-cfg` files are expanded, arguments are handed to the
feeder or the system, variables are set, and what is left is kept for `ParseEvents`. -/

namespace Awb.Classic

/-- What the parsers use from outside: the library's conversions, the build, the files. -/
structure Environment where
  atoiGeneral : String → Int
  atoiGeneralUnsigned : String → UInt64
  /-- The conversion `%p` of `sscanf`. -/
  scanPointer : List Char → Option Nat
  findTraceOpt : String → UInt64
  setParam : String → String → Bool
  builtWithTraceFlags : Bool
  runWithEventsOn : Bool
  /-- The file `ResolveConfigFile` opens for a name, inside the given open files, and its lines. -/
  configFile : List String → String → Option (String × List (List Char))

/-- A number of the command line as the `UINT64` it is passed as. -/
def Environment.count (env : Environment) (arg : String) : UInt64 := .ofInt (env.atoiGeneral arg)

/-- How parsing can end the process. -/
inductive Abort
  | assertion
  | usage
  | exit
  | nullArgument
  | configFile
  deriving DecidableEq, Repr

/-- The regular expression between the slashes at both ends. -/
def traceRegex (cs : List Char) (level : Nat) : Except Abort (Nat × String × Nat) :=
  if cs.getLast? = some '/' then .ok (1, .ofList (cs.dropLast.drop 1), level) else .error .usage

/-- The level at the end of a trace argument. -/
def traceLevel (cs : List Char) : Option Nat :=
  match cs.getLast? with
  | some '0' => some 0
  | some '1' => some 1
  | some '2' => some 2
  | _ => none

/-- `parseTraceCmd`: the arguments consumed, the regular expression and the level. -/
def parseTraceCmd (command : String) : Except Abort (Nat × String × Nat) :=
  let cs := command.toList
  if cs.head? = some '/' then
    match traceLevel cs with
    | none => traceRegex cs 1
    | some level =>
      if cs.dropLast.getLast? = some '=' then traceRegex cs.dropLast.dropLast level
      else .error .usage
  else .ok (0, ".*", 1)

/-- The variables `ParseVariables` sets. -/
structure Variables where
  traceOn : Bool
  profileOn : Bool
  warningsOn : Bool
  registerPortStats : Bool
  traceMask : UInt64
  printTraceNames : Bool
  profilePc : UInt64
  awbCmdFile : Option String
  overrideWorkbench : Option String
  statsFileName : Option String
  debugOn : Bool
  params : List (String × String)
  traces : List (String × Nat)
  errors : List String
  deriving DecidableEq, Repr

/-- `-param <name>=<value>`. -/
def parseParam (env : Environment) (v : Variables) (spec : String) : Variables :=
  let name := String.ofList (spec.toList.takeWhile (· ≠ '='))
  match spec.toList.dropWhile (· ≠ '=') with
  | [] => { v with errors := v.errors ++ ["Invalid parameter specification in '-param " ++ spec ++
      "'\n    Correct syntax: -param <name>=<value>\n"] }
  | _ :: value =>
    if env.setParam name (.ofList value) then
      { v with params := v.params ++ [(name, .ofList value)] }
    else { v with errors := v.errors ++ ["Don't know about dynamic parameter " ++ spec ++
      "\n    ignoring command line portion '-param " ++ spec ++ "'\n"] }

/-- `ParseVariables`: the number of further arguments consumed, `none` if it is no variable. An
argument past the end is a null pointer, which some variables store and others read. -/
def parseVariables (env : Environment) (v : Variables) (arg : String) (rest : List String) :
    Except Abort (Option (Nat × Variables)) :=
  if arg = "-h" then .error .exit
  else if arg = "-t" then
    if env.builtWithTraceFlags then .ok (some (0, { v with traceOn := true }))
    else .error .assertion
  else if arg = "-tr" then
    if env.builtWithTraceFlags then
      match parseTraceCmd (rest.headD " ") with
      | .error a => .error a
      | .ok (incr, regex, level) =>
        .ok (some (incr, { v with traces := v.traces ++ [(regex, level)] }))
    else .error .assertion
  else if arg = "-p" then .ok (some (0, { v with profileOn := true }))
  else if arg = "-w" then .ok (some (0, { v with warningsOn := true }))
  else if arg = "-rps" then .ok (some (0, { v with registerPortStats := true }))
  else if arg = "-tm" then
    match rest with
    | [] => .error .nullArgument
    | n :: _ => .ok (some (1, { v with traceMask := env.count n }))
  else if arg = "-tms" then
    match rest with
    | [] => .error .nullArgument
    | n :: _ => .ok (some (1, { v with traceMask := env.findTraceOpt n }))
  else if arg = "-listmasks" then .error .exit
  else if arg = "-listnames" then .ok (some (0, { v with printTraceNames := true }))
  else if arg = "-ppc" then
    match rest with
    | [] => .error .nullArgument
    | n :: _ => .ok (some (1, { v with profilePc := env.count n }))
  else if arg = "-batch" then .ok (some (0, { v with
    errors := v.errors ++ ["ASIM no longer supports the -batch flag\n"] }))
  else if arg = "-awb" then .ok (some (0, { v with errors := v.errors ++
    ["ASIM no longer supports the -awb flag for interactive Cycledisplay mode\n"] }))
  else if arg = "-cf" then .ok (some (1, { v with awbCmdFile := rest.head? }))
  else if arg = "-wb" then .ok (some (1, { v with overrideWorkbench := rest.head? }))
  else if arg = "-s" then
    match rest with
    | [] => .error .nullArgument
    | f :: _ => .ok (some (1, { v with statsFileName := some f }))
  else if arg = "-d" then .ok (some (0, { v with debugOn := true }))
  else if arg = "-param" then
    match rest with
    | [] => .error .nullArgument
    | spec :: _ => .ok (some (1, parseParam env v spec))
  else if arg = "-listparams" then .error .exit
  else .ok none

/-- The partition of the arguments so far. -/
structure Partition extends Variables where
  feederArgs : Bool := false
  systemArgs : Bool := false
  awbArgv : List String := []
  sysArgv : List String := []
  fdArgv : List String := []
  cfgFilenameStack : List String := []
  deriving DecidableEq, Repr

/-- The white space of `isspace`. -/
def isSpace (c : Char) : Bool := c ∈ [' ', '\t', '\n', '\x0b', '\x0c', '\r']

/-- The states of `scan_arg_value`. -/
inductive ScanState
  | normal | quote | esc
  deriving DecidableEq, Repr

/-- `scan_arg_value`: the word without its quotes, and what follows the white space behind it. -/
def scanArgValue : ScanState → List Char → List Char × List Char
  | _, [] => ([], [])
  | .normal, c :: cs =>
    if isSpace c then ([], cs)
    else if c = '"' then scanArgValue .quote cs
    else (scanArgValue .normal cs).map (c :: ·) id
  | .quote, c :: cs =>
    if c = '\\' then (scanArgValue .esc cs).map (c :: ·) id
    else if c = '"' then scanArgValue .normal cs
    else (scanArgValue .quote cs).map (c :: ·) id
  | .esc, c :: cs => (scanArgValue .quote cs).map (c :: ·) id

/-- The words of a line up to a comment; every word uses up a character. -/
def lineWords : Nat → List Char → List String
  | 0, _ => []
  | fuel + 1, line =>
    match line.dropWhile isSpace with
    | [] => []
    | c :: cs =>
      if c = '#' then []
      else
        let (word, rest) := scanArgValue .normal (c :: cs)
        .ofList word :: lineWords fuel rest

/-- The words of the lines; a line that does not fit the buffer is cut and is the last one. -/
def configWords : List (List Char) → List String
  | [] => []
  | line :: lines =>
    if line.length < 256 then lineWords line.length line ++ configWords lines
    else lineWords 255 (line.take 255)

/-- One iteration of `PartitionOneArg`: the further arguments consumed, and the partition. -/
def partitionOneArg (env : Environment)
    (parseConfigFile : String → Partition → Except Abort Partition) (p : Partition) (arg : String)
    (rest : List String) : Except Abort (Nat × Partition) :=
  if arg = "--" then .ok (0, { p with feederArgs := false, systemArgs := false })
  else if arg = "--feeder" then .ok (0, { p with feederArgs := true, systemArgs := false })
  else if arg = "--system" then .ok (0, { p with feederArgs := false, systemArgs := true })
  else if arg = "-cfg" then
    match rest with
    | [] => .error .nullArgument
    | file :: _ =>
      match parseConfigFile file p with
      | .error a => .error a
      | .ok p => .ok (1, p)
  else if p.feederArgs then
    if arg = "-repeat" then
      match rest with
      | [] => .error .nullArgument
      | n :: _ =>
        let repeatCount := ((env.atoiGeneral n).bmod (2 ^ 32)).toNat
        match p.fdArgv.getLast? with
        | some last => .ok (1, { p with fdArgv := p.fdArgv ++ List.replicate repeatCount last })
        | none => if repeatCount = 0 then .ok (1, p) else .error .nullArgument
    else .ok (0, { p with fdArgv := p.fdArgv ++ [arg] })
  else if p.systemArgs then .ok (0, { p with sysArgv := p.sysArgv ++ [arg] })
  else
    match parseVariables env p.toVariables arg rest with
    | .error a => .error a
    | .ok none => .ok (0, { p with awbArgv := p.awbArgv ++ [arg] })
    | .ok (some (incr, v)) => .ok (incr, { p with toVariables := v })

/-- The loop over the arguments, of which the first `skip` are consumed already. -/
def partitionFrom (env : Environment)
    (parseConfigFile : String → Partition → Except Abort Partition) :
    Nat → Partition → List String → Except Abort Partition
  | _, p, [] => .ok p
  | skip + 1, p, _ :: rest => partitionFrom env parseConfigFile skip p rest
  | 0, p, arg :: rest =>
    match partitionOneArg env parseConfigFile p arg rest with
    | .error a => .error a
    | .ok (skip, p) => partitionFrom env parseConfigFile skip p rest

/-- `ParseConfigFile`: the arguments of the file are partitioned where it is named. Files may
name each other to the given depth. -/
def parseConfigFile (env : Environment) : Nat → String → Partition → Except Abort Partition
  | 0, _, _ => .error .configFile
  | depth + 1, file, p =>
    match env.configFile p.cfgFilenameStack file with
    | none => .error .assertion
    | some (name, lines) =>
      let args := configWords lines
      if args.length < 4096 then
        match partitionFrom env (parseConfigFile env depth) 0
          { p with cfgFilenameStack := name :: p.cfgFilenameStack } args with
        | .error a => .error a
        | .ok p => .ok { p with cfgFilenameStack := p.cfgFilenameStack.drop 1 }
      else .error .assertion

/-- `PartitionArgs`, which does not look at the program's name. -/
def partitionArgs (env : Environment) (depth : Nat) (v : Variables) (argv : List String) :
    Except Abort Partition :=
  partitionFrom env (parseConfigFile env depth) 0 { toVariables := v } (argv.drop 1)

end Awb.Classic
