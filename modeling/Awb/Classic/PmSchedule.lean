import Awb.Classic.Events

/-! The `PmSchedule` command of the workbench: it adds a work item for a time or a period. -/

namespace Awb.Classic

/-- A trigger with its time, as `DecodeActionTime` returns them. -/
structure ActionTime where
  action : ActionTrigger
  time : UInt64
  now_time : action = .now → time = 0

namespace ActionTime

def now : ActionTime := ⟨.now, 0, Command.zero_of_now⟩

theorem zero_of_later (t : Later) (time : UInt64) (h : t.trigger = .now) : time = 0 :=
  absurd h t.ne_now

def later (t : Later) (time : UInt64) : ActionTime := ⟨t.trigger, time, zero_of_later t time⟩

def command (a : ActionTime) (kind : WorkKind) : Command := ⟨kind, a.action, a.time, a.now_time⟩

end ActionTime

/-- The conversion of `sscanf` for an unsigned 64-bit number: a sign is allowed, and a number out
of range becomes the greatest one. -/
def scanUnsigned (cs : List Char) : Option UInt64 :=
  let cs := cs.dropWhile isSpace
  let digits := match cs with
    | '-' :: cs => cs
    | '+' :: cs => cs
    | _ => cs
  let digits := digits.takeWhile Char.isDigit
  let n := digits.foldl (fun n c => 10 * n + (c.toNat - '0'.toNat)) 0
  if digits = [] then none
  else if 2 ^ 64 ≤ n then some (.ofNat (2 ^ 64 - 1))
  else if cs.head? = some '-' then some (0 - .ofNat n)
  else some (.ofNat n)

/-- The names of the actions for a later time. -/
def timeActions : List (String × Later) :=
  [("cycle_once", .cycleOnce), ("cycle_period", .cyclePeriod),
    ("nanosecond_period", .nanosecondPeriod), ("nanosecond_once", .nanosecondOnce),
    ("inst_once", .instOnce), ("inst_period", .instPeriod), ("macroinst_once", .macroInstOnce),
    ("macroinst_period", .macroInstPeriod), ("packet_once", .packetOnce)]

/-- `DecodeActionTime`. -/
def decodeActionTime (aStr : String) (tStr : Option String) : Option ActionTime :=
  if aStr = "now" then some .now
  else
    match tStr with
    | none => none
    | some tStr =>
      match scanUnsigned tStr.toList with
      | none => none
      | some time => (timeActions.lookup aStr).map fun t => .later t time

/-- `PmThreadDescToPtr`; the null pointer is an error. -/
def pmThreadDescToPtr (env : Environment) (desc : String) : Option Thread :=
  if "THREAD__".toList.isPrefixOf desc.toList then
    match env.scanPointer (desc.toList.drop 8) with
    | some 0 => none
    | r => r
  else none

/-- The result of a command: `TCL_OK`, or `TCL_ERROR` with its message. -/
inductive TclResult
  | ok
  | error (message : String)
  deriving DecidableEq, Repr

/-- The actions of `PmSchedule progress`, with what they report and what clears them. -/
def progressActions : List (String × Later × ProgressType × ProgressType) :=
  [("inst", .instPeriod, .inst, .clearInst),
    ("macroinst", .macroInstPeriod, .macroInst, .clearMacroInst),
    ("cycle", .cyclePeriod, .cycle, .clearCycle),
    ("nanosecond", .nanosecondPeriod, .nanosecond, .clearNanosecond)]

def progressCmd (env : Environment) (ctl : Controller) : List String → TclResult × Controller
  | [action, period] =>
    match progressActions.lookup action with
    | none => (.error ("invalid action option \"" ++ action ++
        "\": must be inst, cycle or nanosecond"), ctl)
    | some (t, type, clear) =>
      if period = "clear" then (.ok, ctl.command (ActionTime.now.command (.progress clear "")))
      else (.ok, ctl.command (t.command (.progress type "") (env.count period)))
  | _ => (.error "Usage:\tPmSchedule progress ?inst|cycle|nanosecond? ?clear|period?\n", ctl)

def timeOptionError (arg : String) : String :=
  "invalid time option \"" ++ arg ++ "\": must be now," ++
    " cycle_once, cycle period, inst_once, or inst_period"

/-- The end of the options that take an action and a time. -/
def actionTimeCmd (ctl : Controller) (kind : WorkKind) (arg aStr : String)
    (tStr : Option String) : TclResult × Controller :=
  match decodeActionTime aStr tStr with
  | some a => (.ok, ctl.command (a.command kind))
  | none => (.error (timeOptionError arg), ctl)

/-- `stop` and `exit`. -/
def stopCmd (ctl : Controller) (usage : String) (kind : WorkKind) :
    List String → TclResult × Controller
  | [action] => actionTimeCmd ctl kind action action none
  | [action, time] => actionTimeCmd ctl kind action action (some time)
  | _ => (.error usage, ctl)

def threadError (desc : String) : String := "invalid thread descriptor \"" ++ desc ++ "\""

/-- `schedthread` and `unschedthread`. -/
def threadCmd (env : Environment) (ctl : Controller) (usage : String)
    (kind : Thread → WorkKind) : List String → TclResult × Controller
  | [desc, action] =>
    match pmThreadDescToPtr env desc with
    | none => (.error (threadError desc), ctl)
    | some thread => actionTimeCmd ctl (kind thread) desc action none
  | [desc, action, time] =>
    match pmThreadDescToPtr env desc with
    | none => (.error (threadError desc), ctl)
    | some thread => actionTimeCmd ctl (kind thread) desc action (some time)
  | _ => (.error usage, ctl)

/-- The thread of `skipthread`: all threads, one, or an error. -/
def skipThread (env : Environment) (desc : String) : Option (Option Thread) :=
  if desc.toList.map Char.toLower = "all".toList then some none
  else (pmThreadDescToPtr env desc).map some

def skipThreadCmd (env : Environment) (ctl : Controller) :
    List String → TclResult × Controller
  | [desc, insts, markerID, action] =>
    match skipThread env desc with
    | none => (.error (threadError desc), ctl)
    | some thread => actionTimeCmd ctl (.thdSkip thread (env.atoiGeneralUnsigned insts)
        ((env.atoiGeneral markerID).bmod (2 ^ 32))) desc action none
  | [desc, insts, markerID, action, time] =>
    match skipThread env desc with
    | none => (.error (threadError desc), ctl)
    | some thread => actionTimeCmd ctl (.thdSkip thread (env.atoiGeneralUnsigned insts)
        ((env.atoiGeneral markerID).bmod (2 ^ 32))) desc action (some time)
  | _ => (.error
      "Usage: PmSchedule skipthread ?thread? ?insts? ?markerID? ?action? ?time?", ctl)

/-- `PmScheduleCmd`. -/
def pmScheduleCmd (env : Environment) (ctl : Controller) : List String → TclResult × Controller
  | _ :: option :: args =>
    if option = "progress" then progressCmd env ctl args
    else if option = "start" then
      match args with
      | [] => (.ok, ctl.command (ActionTime.now.command .start))
      | _ => (.error "Usage: PmSchedule start", ctl)
    else if option = "stop" then stopCmd ctl "Usage: PmSchedule stop ?action? ?time?" .stop args
    else if option = "exit" then stopCmd ctl "Usage: PmSchedule exit ?action? ?time?" .exit args
    else if option = "schedthread" then threadCmd env ctl
      "Usage: PmSchedule schedthread ?thread? ?action? ?time?" .thdSched args
    else if option = "unschedthread" then threadCmd env ctl
      "Usage: PmSchedule unschedthread ?thread? ?action? ?time?" .thdUnsched args
    else if option = "skipthread" then skipThreadCmd env ctl args
    else (.error ("unknown option \"" ++ option ++ "\": must be progress, exit," ++
      " start, stop, schedthread, unschedthread or skipthread"), ctl)
  | _ => (.error "Usage: PmSchedule option ?arg ...?", ctl)

end Awb.Classic
