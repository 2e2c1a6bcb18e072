import Awb.Lib.StableInsert
import Mathlib.Data.Fintype.Basic

/-! The work items of the controller and the lists they are queued on: the enumerations and
the classes of `control.h` and `awb.h`, as far as the scheduler and the parsers use them. -/

namespace Awb.Classic

/-- `CMD_ACTIONTRIGGER`: the times when actions can occur. -/
inductive ActionTrigger
  | nanosecondOnce | nanosecondPeriod | cycleOnce | cyclePeriod | instOnce | instPeriod
  | macroInstOnce | macroInstPeriod | now | never | packetOnce
  deriving DecidableEq, Repr

/-- `AWB_PROGRESSTYPE`: the types of progress reportable to the workbench. -/
inductive ProgressType
  | clearCycle | clearInst | clearMacroInst | clearPacket | clearNanosecond
  | exit | start | stop | macroInst | cycle | inst | packet | nanosecond
  | threadBegin | threadEnd | threadUnblock | threadBlock | eventOverflow
  deriving DecidableEq, Repr

/-- The five counters of the system, one for each list of the schedule. -/
inductive CounterKind
  | cycle | nanosecond | inst | macroInst | packet
  deriving DecidableEq, Repr

instance : Fintype CounterKind where
  elems := {.cycle, .nanosecond, .inst, .macroInst, .packet}
  complete k := by cases k <;> decide

structure Counters where
  nanosecond : UInt64
  cycle : UInt64
  inst : UInt64
  macroInst : UInt64
  packet : UInt64
  deriving DecidableEq, Repr

def Counters.get (c : Counters) : CounterKind → UInt64
  | .cycle => c.cycle
  | .nanosecond => c.nanosecond
  | .inst => c.inst
  | .macroInst => c.macroInst
  | .packet => c.packet

/-- An `ASIM_THREAD`, by its address. -/
abbrev Thread := Nat

/-- The classes derived from `CMD_WORKITEM_CLASS` that are put on work lists. -/
inductive WorkKind
  | start
  | stop
  | progress (type : ProgressType) (args : String)
  | emitStats
  | resetStats
  | debug (on : Bool)
  | trace (regex : Option (String × Nat))
  | stats (on : Bool)
  | events (on : Bool)
  | stripchart (on : Bool)
  | profile (on : Bool)
  | exit
  | thdBegin (thread : Thread)
  | thdEnd (thread : Option Thread)
  | thdUnblock (thread : Thread)
  | thdBlock (thread : Thread) (inst : Nat)
  | thdSkip (thread : Option Thread) (insts : UInt64) (markerID : Int)
  | thdSched (thread : Thread)
  | thdUnsched (thread : Thread)
  deriving DecidableEq, Repr

def WorkKind.name : WorkKind → String
  | .start => "START"
  | .stop => "STOP"
  | .progress .. => "PROGRESS"
  | .emitStats => "EMITSTATS"
  | .resetStats => "RESETSTATS"
  | .debug _ => "DEBUG"
  | .trace _ => "DEBUG"
  | .stats _ => "STATS"
  | .events _ => "EVENTS"
  | .stripchart _ => "STRIPCHART"
  | .profile _ => "PROFILE"
  | .exit => "EXIT"
  | .thdBegin _ => "THDBEGIN"
  | .thdEnd _ => "THDEND"
  | .thdUnblock _ => "THDUNBLOCK"
  | .thdBlock .. => "THDBLOCK"
  | .thdSkip .. => "THDSKIP"
  | .thdSched _ => "THDSCHED"
  | .thdUnsched _ => "THDUNSCHED"

/-- What the constructor of a work item is given. An `ACTION_NOW` command has count 0: the
constructor's `VERIFYX` is a field here. -/
structure Command where
  kind : WorkKind
  trigger : ActionTrigger
  count : UInt64
  now_count : trigger = .now → count = 0
  deriving DecidableEq, Repr

theorem Command.zero_of_now : ActionTrigger.now = .now → (0 : UInt64) = 0 := fun _ => rfl

/-- `CMD_WORKITEM_CLASS`. The address of the object is its `id`. -/
structure WorkItem where
  id : Nat
  kind : WorkKind
  trigger : ActionTrigger
  actionTime : UInt64
  period : UInt64
  deriving DecidableEq, Repr

namespace ActionTrigger

/-- The trigger of an action that is rescheduled after it was processed. -/
def isPeriod : ActionTrigger → Bool
  | instPeriod | macroInstPeriod | cyclePeriod | nanosecondPeriod => true
  | _ => false

/-- The counter a trigger watches, and with it the list its items wait on. -/
def counter : ActionTrigger → Option CounterKind
  | now | cycleOnce | cyclePeriod => some .cycle
  | instOnce | instPeriod => some .inst
  | macroInstOnce | macroInstPeriod => some .macroInst
  | nanosecondOnce | nanosecondPeriod => some .nanosecond
  | packetOnce => some .packet
  | never => none

end ActionTrigger

namespace WorkItem

def name (item : WorkItem) : String := item.kind.name

/-- The action time as a number, which the lists are ordered by. -/
def time (item : WorkItem) : Nat := item.actionTime.toNat

def new (id : Nat) (c : Command) : WorkItem :=
  { id, kind := c.kind, trigger := c.trigger, actionTime := c.count, period := c.count }

/-- An action for now waits for time 0, so it goes to the front of its list. -/
def NowZero (item : WorkItem) : Prop := item.trigger = .now → item.actionTime = 0

theorem new_nowZero (id : Nat) (c : Command) : (new id c).NowZero := c.now_count

end WorkItem

/-- `CMD_WORKLIST_CLASS`, read from `head` along `next`. -/
abbrev WorkList := List WorkItem

namespace WorkList

/-- `InsertOrdered`: behind the items that are due at the same time. -/
def insertOrdered (wi : WorkItem) (l : WorkList) : WorkList :=
  StableInsert.insert WorkItem.time wi l

/-- `Add`: at the tail. -/
def add (l : WorkList) (wi : WorkItem) : WorkList := l ++ [wi]

def isProgress (item : WorkItem) : Bool := item.name = "PROGRESS"

/-- `ClearProgress`, by the name of the items. -/
def clearProgress (l : WorkList) : WorkList := l.filter fun item => !isProgress item

/-- The items `ClearProgress` deletes. -/
def progressItems (l : WorkList) : WorkList := l.filter fun item => isProgress item

theorem isProgress_iff (item : WorkItem) :
    isProgress item = true ↔ ∃ type args, item.kind = .progress type args := by
  unfold isProgress WorkItem.name
  cases h : item.kind <;> simp [WorkKind.name]

end WorkList
end Awb.Classic
