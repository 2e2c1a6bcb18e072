import Awb.Lib.Subroutine
import Awb.Run.Names

/-! The names that `awb-run` writes to the summary, and its run of one benchmark: the tests of the
flag files, the set-up and the submission. Whatever the system answers to a test or a command is
given; with `--dryrun` every command succeeds. -/

namespace Awb.Run

scoped instance textOfString : Coe String Text := ⟨String.toList⟩

/-- What an invocation was started with, and what the system answers to its questions in turn. The
benchmark files are looked for more than once, so for these the answer does not change. -/
structure Host where
  resdir : Text
  replace : Bool
  runbatch : Bool
  compress : Text
  batchScrInputs : Text
  execscript : Text
  params : Text → Text
  fullPath : Text → Text
  isFile : Text → Bool
  lines : Text → List Text
  answer : Nat → Text → Bool

/-- A job at the batch system: the entry or trace that it is for, the base names of the `SUBMITTED`
file that was touched for it and of the one that its submission writes to, and its `-benchmark`
argument. -/
structure Job where
  entry : Text
  flag : Text
  log : Text
  benchmark : Text

/-- The global variables. -/
structure Session where
  clock : Nat
  exitCode : Nat
  errors : List (List Text)
  builtModels : List Text
  jobs : List Job

section
variable {ρ : Type} (h : Host)

/-- A question that is answered with yes or no. -/
def ask (question : Text) : Subroutine Session ρ Bool := fun s =>
  (.ok (h.answer s.clock question), { s with clock := s.clock + 1 })

/-- Whether a command fails. -/
def runCommand (command : Text) : Subroutine Session ρ Bool := do
  return !(← ask h command)

/-- `||` over some texts. -/
def any (test : Text → Subroutine Session ρ Bool) : List Text → Subroutine Session ρ Bool
  | [] => pure false
  | text :: texts => do
    if ← test text then pure true else any test texts

def printError (lines : List Text) : Subroutine Session ρ Unit :=
  modify fun s => { s with errors := s.errors ++ [lines] }

/-- `$exit_code++`. -/
def countError : Subroutine Session ρ Unit :=
  modify fun s => { s with exitCode := s.exitCode + 1 }

/-- `if ( ... ) { return }`. -/
def leaveIf (condition : Bool) (result : ρ) : Subroutine Session ρ Unit :=
  if condition then Subroutine.leave result else pure ()

/-- An error that is reported and counted, at which the function returns. -/
def failIf (condition : Bool) (lines : List Text) (result : ρ) : Subroutine Session ρ Unit :=
  if condition then do
    printError lines
    countError
    Subroutine.leave result
  else pure ()

end

/-! ### The summary -/

def bmEntry : Text := ".. "

def badBmEntry : Text := "<UNKNOWN>"

/-- The lines of a list without comments and blank ones. -/
def Host.parseTlistFile (h : Host) (file : Text) : List Text :=
  (h.lines file).filter fun line =>
    line.head? ≠ some '#' && !line.all Char.isWhitespace

/-- The traces of a list that are run: there is no `#` in them. -/
def Host.traces (h : Host) (file : Text) : List Text :=
  ((h.parseTlistFile file).filter fun trace => !trace.contains '#').map
    fun trace => trace.rdropWhile Char.isWhitespace

/-- The names in the summary for an entry of the benchmarks file. -/
def Host.summaryNames (h : Host) (bm : Text) : List Text :=
  let full := h.fullPath bm
  if isTlist bm then
    if h.isFile full then (h.traces full).map basename else [badBmEntry]
  else
    let withoutRegion := h.fullPath (dropRegion bm)
    if !h.isFile full && !h.isFile withoutRegion && !isCfx bm then [badBmEntry]
    else if !h.isFile full && h.isFile withoutRegion then [dropAnyCfg (getBmName bm)]
    else [getBmName bm]

/-- The part of the summary about one experiment. -/
def Host.generateRunSummary (h : Host) (name model : Text) (bms : List Text) : Text :=
  "\n" ++ name ++ "\t" ++ h.fullPath model ++ "\n" ++
    (bms.flatMap h.summaryNames).flatMap fun bmName => (bmEntry ++ bmName ++ "\n" : Text)

/-! ### One benchmark -/

section
variable (h : Host) (name model modelName : Text)

/-- A file in the results directory of an experiment. -/
def Host.resultFile (base ext : Text) : Text := h.resdir ++ "/" ++ name ++ "/" ++ base ++ ext

def Host.rundir (base : Text) : Text := h.resdir ++ "/" ++ name ++ "/RUN/" ++ base

def statsExtensions : List Text := [".stats", ".stats.gz", ".stats.bz2"]

/-- The tests before a benchmark or trace is set up. -/
def checkFlags (base : Text) : Subroutine Session Unit Unit := do
  leaveIf (← ask h ("-f " ++ h.resultFile name base ".SUBMITTED")) ()
  leaveIf (← ask h ("-f " ++ h.resultFile name base ".RUNNING")) ()
  if ← any (ask h) (statsExtensions.map fun ext => "-f " ++ h.resultFile name base ext) then
    leaveIf (!h.replace) ()
    leaveIf (← any (runCommand h)
      (statsExtensions.map fun ext => "rm -f " ++ h.resultFile name base ext)) ()

/-- The command that runs a benchmark. -/
structure BatchCommand where
  benchmark : Text
  resdir : Text
  exp : Text
  compress : Text
  inputs : Text
  execscript : Text
  params : Text

def BatchCommand.text (c : BatchCommand) : Text :=
  "awb-batch -benchmark=" ++ c.benchmark ++ " -resdir=" ++ c.resdir ++ " -exp=" ++ c.exp ++
    " -compress=" ++ c.compress ++ " " ++ c.inputs ++ " -execscript=\"" ++ c.execscript ++
    "\" -- " ++ c.params

def Host.batchCommand (benchmark : Text) : BatchCommand where
  benchmark := benchmark
  resdir := h.resdir ++ "/" ++ name
  exp := model
  compress := h.compress
  inputs := h.batchScrInputs
  execscript := h.execscript
  params := h.params name

/-- The submission of a run: whether there was an error. -/
def submitJob (entry flag bmName : Text) (command : BatchCommand) :
    Subroutine Session Bool Bool := do
  if h.runbatch then
    let log := h.resultFile name bmName ".SUBMITTED"
    let runLog := h.resdir ++ "/" ++ name ++ "/ADMIN/" ++ bmName ++ ".asimlog"
    if ← runCommand h ("submit " ++ command.text ++ " " ++ runLog ++ " >" ++ log ++ " 2>&1") then
      printError ["Netbatch returned error. Submission to run_sys not finished\n",
        "Submitted command: " ++ command.text ++ "\n", "Submission log: " ++ log ++ "\n",
        "Run log: " ++ runLog ++ "\n", "Failed Model build.\n"]
      return true
    else
      modify fun s => { s with jobs := s.jobs ++ [⟨entry, flag, bmName, command.benchmark⟩] }
      return false
  else
    if ← runCommand h command.text then
      printError ["Failure running submit_cmd: " ++ command.text ++ "\n"]
      return true
    else return false

/-- An error that is reported, at which `setup_tlist_run` returns 1. -/
def reportIf (condition : Bool) (lines : List Text) : Subroutine Session Bool Unit :=
  if condition then do
    printError lines
    Subroutine.leave true
  else pure ()

/-- `setup_tlist_run`: whether there was an error. -/
def setupTlistRun (trace rundir : Text) : Subroutine Session Bool Bool := do
  let modelBinary := h.resdir ++ "/" ++ name ++ "/BUILD/" ++ modelName
  let traceName := basename trace
  reportIf (!(← ask h ("-f " ++ modelBinary))) ["Unable to resolve model binary (" ++
    modelBinary ++ ") for trace : " ++ traceName ++ ".\n"]
  reportIf (← runCommand h ("mkdir " ++ rundir)) ["Unable to create directory " ++ rundir ++ ".\n",
    "Skipping execution of trace : " ++ traceName ++ ".\n"]
  reportIf (← runCommand h ("open " ++ rundir ++ "/run"))
    ["Cannot create run file for trace : " ++ traceName ++ ".\n"]
  reportIf (← runCommand h ("open " ++ rundir ++ "/awbcmds"))
    ["Cannot create awbcmds file for trace : " ++ traceName ++ ".\n"]
  reportIf (← runCommand h ("chmod 0755 " ++ rundir ++ "/run"))
    ["Cannot set permissions for trace (" ++ traceName ++ ") runfile.\n"]
  return false

/-- The run directory, which is set up unless there is one: `setUp` says whether that fails. -/
def prepareRundir (base : Text) (setUp : Subroutine Session Unit Bool) (setUpError : List Text) :
    Subroutine Session Unit Unit := do
  if ← ask h ("-d " ++ h.rundir name base) then
    let _ ← runCommand h ("rm -f " ++ h.rundir name base ++ "/*.stats* > /dev/null 2>&1")
  else
    failIf (← setUp) setUpError ()

/-- The flag file and the submission, for which `submit_job` is given a name of its own. -/
def touchAndSubmit (entry base submitName benchmark : Text) : Subroutine Session Unit Unit := do
  let flagFile := h.resultFile name base ".SUBMITTED"
  failIf (← runCommand h ("touch " ++ flagFile))
    ["Unable to submit " ++ base ++ " for experiment " ++ name ++ "\n",
      "Unable to create file " ++ flagFile ++ ".\n"] ()
  let submiterror ← Subroutine.call
    (submitJob h name entry base submitName (h.batchCommand name model benchmark))
  if submiterror then
    countError
    Subroutine.leave ()

/-- One trace of a list; if it may not run or fails, the whole list ends. -/
def runTrace (bmName trace : Text) : Subroutine Session Unit Unit := do
  let traceName := basename trace
  checkFlags h name traceName
  prepareRundir h name traceName
    (Subroutine.call (setupTlistRun h name modelName trace (h.rundir name traceName)))
    ["Unable to setup trace " ++ traceName ++ "\n",
      "Not running trace " ++ traceName ++ " for experiment " ++ name ++ ".\n"]
  touchAndSubmit h name model trace traceName bmName traceName

/-- A benchmark with a configuration file of its own or of all its regions, or of a script. -/
def runCfg (bm : Text) : Subroutine Session Unit Unit := do
  let full := h.fullPath bm
  let withoutRegion := h.fullPath (dropRegion bm)
  if !h.isFile full && !h.isFile withoutRegion && !isCfx bm then
    countError
    Subroutine.leave ()
  else
    let altered := isCfx bm && hasRegion bm || !h.isFile full && h.isFile withoutRegion
    let bmName := if altered then dropAnyCfg (getBmName bm) else getBmName bm
    checkFlags h name bmName
    prepareRundir h name bmName
      (runCommand h ("awb-shell -batch setup benchmark " ++ full ++ " -- --builddir " ++
        h.resdir ++ "/" ++ name ++ "/BUILD --rundir " ++ h.rundir name bmName ++ " --model " ++
        model))
      ["Unable to setup benchmark " ++ bmName ++ "\n",
        "Not running benchmark " ++ bmName ++ " for experiment " ++ name ++ ".\n"]
    touchAndSubmit h name model bm bmName bmName bm

def runTlist (bm : Text) : Subroutine Session Unit Unit := do
  let full := h.fullPath bm
  failIf (!h.isFile full) ["Unable to find benchmark tlist file " ++ full ++ ".\n"] ()
  (h.traces full).forM (runTrace h name model modelName (getBmName bm))

def runOneBenchmark (bm : Text) : Subroutine Session Unit Unit :=
  if isTlist bm then runTlist h name model modelName bm else runCfg h name model bm

end

end Awb.Run
