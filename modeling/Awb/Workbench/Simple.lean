import Awb.Classic.PmSchedule

/-! The batch workbench of `simpleWb.tcl`: its threads, its benchmark commands, and what its
procedures put on the work list of the controller. -/

namespace Awb.Workbench
open Awb.Classic

/-- What the workbench uses from outside: the conversions of the command parser, the uids of the
threads, `%p` of `printf`, and the order of `array names`. -/
structure Host extends Environment where
  threadUid : Thread → Nat
  printPointer : Thread → String
  scan_print : ∀ t, scanPointer (printPointer t).toList = some t
  arrayNames : List String → List String
  arrayNames_perm : ∀ names, (arrayNames names).Perm names

/-- A progress event, as `AWB_Progress` adds it to the pending ones. -/
structure Progress where
  type : ProgressType
  args : List String
  deriving DecidableEq, Repr

namespace Host

def uid (host : Host) (thread : Thread) : String := toString (host.threadUid thread)

def desc (host : Host) (thread : Thread) : String := "THREAD__" ++ host.printPointer thread

/-- What the `CmdAction` of an item reports. -/
def cmdProgress (host : Host) (kind : WorkKind) : List Progress :=
  match kind with
  | .start => [⟨.start, []⟩]
  | .stop => [⟨.stop, []⟩]
  | .progress type args =>
    if kind.clears = none then [⟨type, if args = "" then [] else [args]⟩] else []
  | .thdBegin thread => [⟨.threadBegin, [host.uid thread, host.desc thread]⟩]
  | .thdEnd (some thread) => [⟨.threadEnd, [host.uid thread, host.desc thread]⟩]
  | .thdEnd none => [⟨.threadEnd, ["THREAD__NULL"]⟩]
  | .thdUnblock thread => [⟨.threadUnblock, [host.uid thread, host.desc thread]⟩]
  | .thdBlock thread _ => [⟨.threadBlock, [host.uid thread, host.desc thread]⟩]
  | _ => []

end Host

inductive ThdState
  | idle
  | running
  deriving DecidableEq, Repr

/-- `ThdNew`. -/
structure Thd where
  uid : String
  desc : String
  state : ThdState
  deriving DecidableEq, Repr

/-- The types of `AwbRun`, except `marker`. -/
inductive RunType
  | cycle
  | inst
  | nanosecond
  deriving DecidableEq, Repr

namespace RunType

def counter : RunType → CounterKind
  | cycle => .cycle
  | inst => .inst
  | nanosecond => .nanosecond

/-- The action of the stop that ends a run. -/
def stopAction : RunType → String
  | cycle => "cycle_once"
  | inst => "inst_once"
  | nanosecond => "nanosecond_once"

end RunType

/-- The benchmark commands. Without a count, `AwbSample` iterates forever. -/
inductive Cmd
  | awbRun (type : RunType) (amount : Nat)
  | awbExit
  | awbSkip (uid : String) (inst : Nat) (markerID : Int)
  | awbNewSkip (uid : String) (inst : Nat) (markerID : Int)
  | awbBeginDrain
  | awbEndDrain
  | awbSample (warmup run skip : Nat) (iter : Option Nat)
  | awbProgress (type period : String)
  | awbStats (onoffdump file : String)
  | awbEvents (onofffilename file : String)
  deriving DecidableEq, Repr

/-- The array `bmStop`, which `AwbRun` sets and `ProcessBmCmds` empties. -/
inductive BmStop
  | unset
  | empty
  | run (type : RunType) (time : Nat)
  deriving DecidableEq, Repr

/-- The workbench in front of the controller. `processing` holds within `ProcessBmCmds`, and what
is left of the pending progress is the rest of the loop of `BatchProgress`. -/
structure Bench where
  loop : LoopState
  sysBreak : Bool := false
  pendingProgress : List Progress := []
  threads : List Thd := []
  bmCmds : List Cmd := []
  bmStop : BmStop := .unset
  processing : Bool := false
  deriving DecidableEq, Repr

namespace Bench

/-- A `CMD_` function: the system breaks, so that the controller gets its new work item. -/
def command (b : Bench) (c : Command) : Bench :=
  { b with loop := b.loop.arrive c, sysBreak := true }

/-- `PmSchedule` with its arguments. -/
def pmSchedule (host : Host) (args : List String) (b : Bench) : Except String Bench :=
  match pmScheduleCmd host.toEnvironment b.loop.toController ("PmSchedule" :: args) with
  | (.ok, ctl) => .ok { b with loop := { b.loop with toController := ctl }, sysBreak := true }
  | (.error message, _) => .error message

/-! ### Threads -/

def thd? (b : Bench) (uid : String) : Option Thd := b.threads.find? fun thd => thd.uid = uid

def setThdState (uid : String) (state : ThdState) (b : Bench) : Bench :=
  { b with threads := b.threads.map fun thd => if thd.uid = uid then { thd with state } else thd }

/-- `array names threads`. -/
def names (host : Host) (b : Bench) : List String := host.arrayNames (b.threads.map Thd.uid)

/-- `PmSchedule` a thread, and record its new state. -/
def moveThread (host : Host) (option : String) (state : ThdState) (trigger : String) (time : Nat)
    (thd : Thd) (b : Bench) : Except String Bench := do
  let b ← b.pmSchedule host [option, thd.desc, trigger, toString time]
  .ok (b.setThdState thd.uid state)

/-- `ScheduleThread` and `UnscheduleThread`: one thread, or all that are in the other state. -/
def moveThreads (host : Host) (name option : String) (source target : ThdState) (uid trigger : String)
    (time : Nat) (b : Bench) : Except String Bench :=
  if uid = "all" then
    (b.names host).foldlM (fun b tn =>
      match b.thd? tn with
      | some thd =>
        if thd.state = source then b.moveThread host option target trigger time thd else .ok b
      | none => .error ("can't read \"threads(" ++ tn ++ ")\"")) b
  else
    match b.thd? uid with
    | some thd => b.moveThread host option target trigger time thd
    | none => .error (name ++ ": Don't know about thread " ++ uid)

def scheduleThread (host : Host) : String → String → Nat → Bench → Except String Bench :=
  moveThreads host "ScheduleThread" "schedthread" .idle .running

def unscheduleThread (host : Host) : String → String → Nat → Bench → Except String Bench :=
  moveThreads host "UnscheduleThread" "unschedthread" .running .idle

def isIdle (thd : Thd) : Bool := thd.state = .idle

def skipThread (host : Host) (uid : String) (inst : Nat) (markerID : Int) (trigger : String)
    (time : Nat) (b : Bench) : Except String Bench :=
  if uid = "all" then
    let idlecnt := b.threads.countP isIdle
    if idlecnt ≠ 0 then
      b.pmSchedule host ["skipthread", "all", toString (inst / idlecnt), toString markerID,
        trigger, toString time]
    else .ok b
  else
    match b.thd? uid with
    | some thd => b.pmSchedule host ["skipthread", thd.desc, toString inst, toString markerID,
        trigger, toString time]
    | none => .error ("SkipThread: Don't know about thread " ++ uid)

def changeThreadState (uid : String) (state : ThdState) (b : Bench) : Except String Bench :=
  if uid = "all" then .ok { b with threads := b.threads.map fun thd => { thd with state } }
  else
    match b.thd? uid with
    | some thd => .ok (b.setThdState thd.uid state)
    | none => .error ("ChangeThreadState: Don't know about thread " ++ uid)

/-! ### Benchmark commands -/

/-- `PmControl cycle`, `globalcommitted` and `nanosecond`. -/
def pmControl (b : Bench) (type : RunType) : Nat := (b.loop.system.get type.counter).toNat

def awbRun (host : Host) (type : RunType) (amount : Nat) (b : Bench) : Except String Bench := do
  let stopTime := b.pmControl type + amount
  let b ← b.pmSchedule host ["stop", type.stopAction, toString stopTime]
  { b with bmStop := .run type stopTime }.pmSchedule host ["start"]

def awbExit (host : Host) (b : Bench) : Except String Bench := do
  let b ← b.pmSchedule host ["exit", "now"]
  b.pmSchedule host ["start"]

def awbSkip (host : Host) (uid : String) (inst : Nat) (markerID : Int) (b : Bench) :
    Except String Bench := do
  let currTime := b.pmControl .cycle
  let b ← b.unscheduleThread host uid "cycle_once" currTime
  let b ← b.skipThread host uid inst markerID "cycle_once" (currTime + 1)
  b.scheduleThread host uid "cycle_once" (currTime + 2)

def awbNewSkip (host : Host) (uid : String) (inst : Nat) (markerID : Int) (b : Bench) :
    Except String Bench := do
  let currTime := b.pmControl .cycle
  let b ← b.changeThreadState uid .idle
  let b ← b.skipThread host uid inst markerID "cycle_once" currTime
  b.changeThreadState uid .running

/-- `AwbSample` with one number to skip: the steps of the sample, in front of the next one. -/
def awbSample (warmup run skip : Nat) (iter : Option Nat) (b : Bench) : Bench :=
  if (warmup > 0 ∨ run > 0 ∨ skip > 0) ∧ iter ≠ some 0 then
    let bmCmds := .awbSample warmup run skip (iter.map fun n => n - 1) :: b.bmCmds
    let bmCmds := if skip > 0 then
        .awbStats "off" "stats.out" :: .awbBeginDrain :: .awbRun .cycle 1000 ::
          .awbNewSkip "all" skip (-1) :: .awbEndDrain :: bmCmds
      else bmCmds
    let bmCmds := if run > 0 then
        .awbStats "on" "stats.out" :: .awbRun .inst run :: .awbStats "off" "stats.out" :: bmCmds
      else bmCmds
    let bmCmds := if warmup > 0 then
        .awbStats "off" "stats.out" :: .awbRun .inst warmup :: bmCmds
      else bmCmds
    { b with bmCmds }
  else b

/-- `AwbStats` and `AwbEvents` only reach the state descriptors and the event file. -/
def awbStats (onoffdump : String) (b : Bench) : Except String Bench :=
  if ["dump", "dumponexit", "on", "off"].contains onoffdump then .ok b
  else .error ("workbench: Unknown enable type \"" ++ onoffdump ++ "\", expecting on or off")

def awbEvents (onofffilename : String) (b : Bench) : Except String Bench :=
  if ["on", "off", "filename"].contains onofffilename then .ok b
  else .error ("workbench: Unknown enable type \"" ++ onofffilename ++
    "\", expecting on, off, or filename file_name")

/-- A benchmark command that is evaluated. -/
def eval (host : Host) (cmd : Cmd) (b : Bench) : Except String Bench :=
  match cmd with
  | .awbRun type amount => b.awbRun host type amount
  | .awbExit => b.awbExit host
  | .awbSkip uid inst markerID => b.awbSkip host uid inst markerID
  | .awbNewSkip uid inst markerID => b.awbNewSkip host uid inst markerID
  | .awbBeginDrain | .awbEndDrain => .ok b
  | .awbSample warmup run skip iter => .ok (b.awbSample warmup run skip iter)
  | .awbProgress type period => b.pmSchedule host ["progress", type, period]
  | .awbStats onoffdump _ => b.awbStats onoffdump
  | .awbEvents onofffilename _ => b.awbEvents onofffilename

/-! ### Progress events -/

def threadBegin (host : Host) (uid desc : String) (b : Bench) : Except String Bench :=
  match b.thd? uid with
  | some _ => .error "Multiple threadbegins for same thread uid"
  | none =>
    { b with threads := b.threads ++ [Thd.mk uid desc .idle] }.scheduleThread host uid "now" 0

def threadEnd (host : Host) (uid : String) (b : Bench) : Except String Bench :=
  match b.thd? uid with
  | none => .error "Got threadend for thread without previous threadbegin"
  | some _ => do
    let b ← b.unscheduleThread host uid "now" 0
    let b := { b with threads := b.threads.filter fun thd => thd.uid ≠ uid }
    if b.threads = [] then b.awbExit host else .ok b

/-- The entry of `ProcessBmCmds`. -/
def processBmCmds (b : Bench) : Bench := { b with bmStop := .empty, processing := true }

def checkBmCmds (b : Bench) : Except String Bench :=
  match b.bmStop with
  | .unset => .error "can't read \"bmStop(TYPE)\""
  | .run .cycle time => .ok (if b.pmControl .cycle = time then b.processBmCmds else b)
  | .run .inst time => .ok (if b.pmControl .inst ≥ time then b.processBmCmds else b)
  | .run .nanosecond time => .ok (if b.pmControl .nanosecond ≥ time then b.processBmCmds else b)
  | .empty => .ok b.processBmCmds

/-- `BatchProgress` for one event. -/
def batchProgress (host : Host) (p : Progress) (b : Bench) : Except String Bench :=
  match p.type with
  | .cycle | .nanosecond | .macroInst | .inst | .start => .ok b
  | .stop => b.checkBmCmds
  | .threadBegin => b.threadBegin host (p.args.getD 0 "") (p.args.getD 1 "")
  | .threadEnd => b.threadEnd host (p.args.getD 0 "")
  | .threadBlock | .threadUnblock | .exit => .ok b
  | _ => .error "workbench::BatchProgress: Unexpected progress type"

/-- `AwbInit` with the commands of its script. -/
def awbInit (host : Host) (bmCmds : List Cmd) (b : Bench) : Except String Bench :=
  if bmCmds = [] then { b with bmCmds }.pmSchedule host ["start"]
  else { b with bmCmds }.awbRun host .cycle 0

end Bench

end Awb.Workbench
