import Awb.Classic.CommandLine

/-! The event flags of the command line. `ParseOneEvent` is one chain of comparisons; here it is
the table of its branches in the order of the source, of which the first that applies is taken. -/

namespace Awb.Classic

/-- A trigger of an action that is not for now. -/
structure Later where
  trigger : ActionTrigger
  ne_now : trigger ≠ .now

namespace Later

def nanosecondOnce : Later := ⟨.nanosecondOnce, by decide⟩
def nanosecondPeriod : Later := ⟨.nanosecondPeriod, by decide⟩
def cycleOnce : Later := ⟨.cycleOnce, by decide⟩
def cyclePeriod : Later := ⟨.cyclePeriod, by decide⟩
def instOnce : Later := ⟨.instOnce, by decide⟩
def instPeriod : Later := ⟨.instPeriod, by decide⟩
def macroInstOnce : Later := ⟨.macroInstOnce, by decide⟩
def macroInstPeriod : Later := ⟨.macroInstPeriod, by decide⟩
def packetOnce : Later := ⟨.packetOnce, by decide⟩

/-- The command of a `CMD_` function with a count. -/
def command (t : Later) (kind : WorkKind) (count : UInt64) : Command :=
  ⟨kind, t.trigger, count, fun h => absurd h t.ne_now⟩

end Later

/-- What `ParseOneEvent` works on: the controller, and what it sets outside of it. -/
structure EventState extends Controller where
  traces : List (String × Nat) := []
  xchecks : List String := []
  warnings : List String := []
  deriving DecidableEq, Repr

def EventState.command (st : EventState) (c : Command) : EventState :=
  { st with toController := st.toController.command c }

/-- What a branch does. All but `-tr` and `-e` are guarded by `argc > i + 1`. -/
inductive EventAction
  | command (kind : WorkKind) (trigger : Later)
  | startEvents (trigger : Later)
  | eventsNow
  | xcheck
  | enableTrace
  | delayTrace (trigger : Later)

structure EventBranch where
  flag : String
  action : EventAction

/-- The chain of `ParseOneEvent`. -/
def eventBranches : List EventBranch :=
  [⟨"-n", .command .exit .nanosecondOnce⟩, ⟨"-c", .command .exit .cycleOnce⟩,
    ⟨"-i", .command .exit .instOnce⟩, ⟨"-m", .command .exit .macroInstOnce⟩,
    ⟨"-xcheck", .xcheck⟩, ⟨"-tr", .enableTrace⟩,
    ⟨"-tsi", .command (.debug true) .instOnce⟩, ⟨"-tri", .command (.trace none) .instOnce⟩,
    ⟨"-ti", .delayTrace .instOnce⟩, ⟨"-ssi", .command (.stats true) .instOnce⟩,
    ⟨"-esi", .startEvents .instOnce⟩, ⟨"-csi", .command (.stripchart true) .instOnce⟩,
    ⟨"-psi", .command (.profile true) .instOnce⟩, ⟨"-tei", .command (.debug false) .instOnce⟩,
    ⟨"-sei", .command (.stats false) .instOnce⟩, ⟨"-eei", .command (.events false) .instOnce⟩,
    ⟨"-cei", .command (.stripchart false) .instOnce⟩, ⟨"-pei", .command (.profile false) .instOnce⟩,
    ⟨"-tsm", .command (.debug true) .macroInstOnce⟩,
    ⟨"-trm", .command (.trace none) .macroInstOnce⟩, ⟨"-tm", .delayTrace .macroInstOnce⟩,
    ⟨"-ssm", .command (.stats true) .macroInstOnce⟩, ⟨"-esm", .startEvents .macroInstOnce⟩,
    ⟨"-csm", .command (.stripchart true) .macroInstOnce⟩,
    ⟨"-psm", .command (.profile true) .macroInstOnce⟩,
    ⟨"-tem", .command (.debug false) .macroInstOnce⟩,
    ⟨"-sem", .command (.stats false) .macroInstOnce⟩,
    ⟨"-eem", .command (.events false) .macroInstOnce⟩,
    ⟨"-cem", .command (.stripchart false) .macroInstOnce⟩,
    ⟨"-pem", .command (.profile false) .macroInstOnce⟩, ⟨"-tsc", .command (.debug true) .cycleOnce⟩,
    ⟨"-trc", .command (.trace none) .cycleOnce⟩, ⟨"-tc", .delayTrace .cycleOnce⟩,
    ⟨"-ssc", .command (.stats true) .cycleOnce⟩, ⟨"-e", .eventsNow⟩,
    ⟨"-esc", .startEvents .cycleOnce⟩, ⟨"-csc", .command (.stripchart true) .cycleOnce⟩,
    ⟨"-psc", .command (.profile true) .cycleOnce⟩, ⟨"-tec", .command (.debug false) .cycleOnce⟩,
    ⟨"-sec", .command (.stats false) .cycleOnce⟩, ⟨"-eec", .command (.events false) .cycleOnce⟩,
    ⟨"-cec", .command (.stripchart false) .cycleOnce⟩,
    ⟨"-pec", .command (.profile false) .cycleOnce⟩,
    ⟨"-tsn", .command (.debug true) .nanosecondOnce⟩,
    ⟨"-trn", .command (.trace none) .nanosecondOnce⟩, ⟨"-tn", .delayTrace .nanosecondOnce⟩,
    ⟨"-ssn", .command (.stats true) .nanosecondOnce⟩, ⟨"-esn", .startEvents .nanosecondOnce⟩,
    ⟨"-csn", .command (.stripchart true) .nanosecondOnce⟩,
    ⟨"-psn", .command (.profile true) .nanosecondOnce⟩,
    ⟨"-ten", .command (.debug false) .nanosecondOnce⟩,
    ⟨"-sen", .command (.stats false) .nanosecondOnce⟩,
    ⟨"-eec", .command (.events false) .nanosecondOnce⟩,
    ⟨"-cec", .command (.stripchart false) .nanosecondOnce⟩,
    ⟨"-pen", .command (.profile false) .nanosecondOnce⟩,
    ⟨"-pc", .command (.progress .cycle "") .cyclePeriod⟩,
    ⟨"-pi", .command (.progress .inst "") .instPeriod⟩,
    ⟨"-pm", .command (.progress .macroInst "") .macroInstPeriod⟩,
    ⟨"-pn", .command (.progress .nanosecond "") .nanosecondPeriod⟩,
    ⟨"-sn", .command .emitStats .nanosecondPeriod⟩, ⟨"-sc", .command .emitStats .cyclePeriod⟩,
    ⟨"-si", .command .emitStats .instPeriod⟩, ⟨"-sm", .command .emitStats .macroInstPeriod⟩,
    ⟨"-rsc", .command .resetStats .cycleOnce⟩, ⟨"-rsn", .command .resetStats .nanosecondOnce⟩,
    ⟨"-rsi", .command .resetStats .instOnce⟩, ⟨"-rsm", .command .resetStats .macroInstOnce⟩,
    ⟨"-rscp", .command .resetStats .cyclePeriod⟩, ⟨"-rsnp", .command .resetStats .nanosecondPeriod⟩,
    ⟨"-rsip", .command .resetStats .instPeriod⟩, ⟨"-rsmp", .command .resetStats .macroInstPeriod⟩]

namespace EventAction

/-- The second half of the condition of a branch. -/
def applies (rest : List String) : EventAction → Bool
  | eventsNow | enableTrace => true
  | _ => !rest.isEmpty

/-- The body of a branch: the further arguments it consumes, and the state it leaves. -/
def run (env : Environment) (st : EventState) (rest : List String) :
    EventAction → Except Abort (Nat × EventState)
  | command kind trigger =>
    match rest with
    | [] => .error .nullArgument
    | n :: _ => .ok (1, st.command (trigger.command kind (env.count n)))
  | startEvents trigger =>
    if env.runWithEventsOn then
      match rest with
      | [] => .error .nullArgument
      | n :: _ => .ok (1, st.command (trigger.command (.events true) (env.count n)))
    else .error .assertion
  | eventsNow =>
    if env.runWithEventsOn then .ok (0, st.command (Later.cycleOnce.command (.events true) 0))
    else .error .assertion
  | xcheck =>
    match rest with
    | [] => .error .nullArgument
    | file :: _ => .ok (1, { st with xchecks := st.xchecks ++ [file] })
  | enableTrace =>
    match parseTraceCmd (rest.headD " ") with
    | .error a => .error a
    | .ok (incr, regex, level) => .ok (incr, { st with traces := st.traces ++ [(regex, level)] })
  | delayTrace trigger =>
    match parseTraceCmd (rest.headD " ") with
    | .error a => .error a
    | .ok (incr, regex, level) =>
      match rest.drop incr with
      | [] => .error .nullArgument
      | n :: _ => .ok (incr + 1,
          st.command (trigger.command (.trace (some (regex, level))) (env.count n)))

end EventAction

/-- `ParseOneEvent`: the further arguments consumed, `none` for an unknown flag. -/
def parseOneEvent (env : Environment) (st : EventState) (arg : String) (rest : List String) :
    Except Abort (Option Nat × EventState) :=
  if ['-', 't'].isPrefixOf arg.toList && !env.builtWithTraceFlags then .error .assertion
  else
    match eventBranches.find? fun b => b.flag = arg && b.action.applies rest with
    | none => .ok (none, { st with warnings := st.warnings ++ ["Unknown flag, " ++ arg ++ "\n"] })
    | some b =>
      match b.action.run env st rest with
      | .error a => .error a
      | .ok (used, st) => .ok (some used, st)

/-- `ParseEvents`, the first `skip` arguments being consumed already; false on a parse error. -/
def parseEvents (env : Environment) : Nat → EventState → List String →
    Except Abort (Bool × EventState)
  | _, st, [] => .ok (true, st)
  | skip + 1, st, _ :: rest => parseEvents env skip st rest
  | 0, st, arg :: rest =>
    match parseOneEvent env st arg rest with
    | .error a => .error a
    | .ok (none, st) => .ok (false, st)
    | .ok (some skip, st) => parseEvents env skip st rest

end Awb.Classic
