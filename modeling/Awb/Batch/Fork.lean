import Awb.Lib.Children
import Awb.Lib.Runs

/-! `Asim::Fork`: a process that forks children under a throttle and exits with their exit codes.
A child may end before any system call of its parent. -/

namespace Awb.Batch
open Children

/-- `$? >> 8`. -/
def childEcode (status : Status) : Nat := status.word >>> 8

/-- The last arguments of `controlled_fork`. -/
structure ForkArgs where
  wait : Bool
  throttle : Nat
  deriving DecidableEq, Repr

/-- Zero throttle means infinite, basically. -/
def ForkArgs.limit (args : ForkArgs) : Nat := if args.throttle = 0 then 9999999 else args.throttle

/-- `count_children(1)` on its way through `@children`. -/
structure Count where
  todo : List Pid
  alive : List Pid := []
  ecodes : Nat := 0
  deriving DecidableEq, Repr

/-- The body of its loop for one child. -/
def Count.child (pid : Pid) (todo : List Pid) (table : Table) (count : Count) : Table × Count :=
  match table.waitpid pid with
  | (.noChild, table) => (table, { count with todo })
  | (.running, table) => (table, { count with todo, alive := count.alive ++ [pid] })
  | (.ended status, table) =>
    (table, { count with todo, ecodes := count.ecodes + childEcode status })

/-- Where the process is: outside of the library, in `controlled_fork`, in `wait_for_children`, or
gone. -/
inductive Phase
  | idle
  | counting (args : ForkArgs) (count : Count)
  | waiting (exitCode : Int) (ecode : Nat)
  | exited (status : Nat)
  deriving DecidableEq, Repr

/-- The process with the variables of the library. `exitCode` is `our $exit_code`; the one of
`controlled_exit` is another. -/
structure Process where
  waitForChildren : Bool
  children : List Pid := []
  exitCode : Int := 0
  table : Table := ∅
  phase : Phase := .idle
  deriving DecidableEq

/-- What happens: a child ends, the library is called, or the process makes a system call, with
the choice of the operating system. -/
inductive ForkLabel
  | ends (pid : Pid) (status : Status)
  | controlledFork (args : ForkArgs)
  | waitpid
  | sleep
  | fork (pid : Pid)
  | forkFails
  | controlledExit (exitCode : Int)
  | wait (pid : Pid)
  | exit
  deriving DecidableEq, Repr

/-- The end of `count_children(1)`. -/
def Process.reaped (p : Process) (count : Count) : Process :=
  { p with children := count.alive, exitCode := p.exitCode + count.ecodes }

/-- `exit` keeps eight bits. -/
def exitStatus (exitCode : Int) : Nat := (exitCode % 256).toNat

/-- `controlled_exit` before its first `wait`. -/
def Process.exitPhase (p : Process) (exitCode : Int) : Phase :=
  if p.waitForChildren then .waiting exitCode 0 else .exited (exitStatus exitCode)

def Process.step (p : Process) : ForkLabel → Option Process
  | .ends pid status =>
    if p.table.Runs pid then some { p with table := p.table.finish pid status } else none
  | .controlledFork args =>
    if p.phase = .idle then some { p with phase := .counting args ⟨p.children, [], 0⟩ } else none
  | .waitpid =>
    match p.phase with
    | .counting args count =>
      match count.todo with
      | pid :: todo =>
        let (table, count) := count.child pid todo p.table
        some { p with table, phase := .counting args count }
      | [] => none
    | _ => none
  | .sleep =>
    match p.phase with
    | .counting args count =>
      if count.todo = [] ∧ ¬ count.alive.length < args.limit then
        some { p.reaped count with phase := .counting args ⟨count.alive, [], 0⟩ }
      else none
    | _ => none
  | .fork pid =>
    match p.phase with
    | .counting args count =>
      if count.todo = [] ∧ count.alive.length < args.limit ∧ pid ≠ 0 ∧ pid ∉ p.table then
        some { p.reaped count with
          children := count.alive ++ [pid], table := p.table.start pid, phase := .idle }
      else none
    | _ => none
  -- an undefined pid compares equal to 0, so the parent takes itself for the child
  | .forkFails =>
    match p.phase with
    | .counting args count =>
      if count.todo = [] ∧ count.alive.length < args.limit then
        some { p.reaped count with
          children := [], exitCode := 0, waitForChildren := args.wait, phase := .idle }
      else none
    | _ => none
  | .controlledExit exitCode =>
    if p.phase = .idle then some { p with phase := p.exitPhase exitCode } else none
  | .wait pid =>
    match p.phase, p.table.lookup pid with
    | .waiting exitCode ecode, some (some status) =>
      some { p with
        table := p.table.reap pid, phase := .waiting exitCode (ecode + childEcode status) }
    | _, _ => none
  | .exit =>
    match p.phase with
    | .waiting exitCode ecode =>
      if p.table.keys = [] then some { p with phase := .exited (exitStatus (exitCode + ecode)) }
      else none
    | _ => none

/-- The steps of the process. -/
def ForkStep (p : Process) (l : ForkLabel) (p' : Process) : Prop := p.step l = some p'

/-- A process that waits for its children, before its first call. -/
def waitingProcess : Process := { waitForChildren := true }

/-- What a step does, case by case. -/
inductive ForkMove (p : Process) : ForkLabel → Process → Prop
  | ends {pid : Pid} {status : Status} : p.table.Runs pid →
      ForkMove p (.ends pid status) { p with table := p.table.finish pid status }
  | controlledFork {args : ForkArgs} : p.phase = .idle →
      ForkMove p (.controlledFork args) { p with phase := .counting args ⟨p.children, [], 0⟩ }
  | waitpid {args : ForkArgs} {count : Count} {pid : Pid} {todo : List Pid} :
      p.phase = .counting args count → count.todo = pid :: todo →
      ForkMove p .waitpid { p with
        table := (count.child pid todo p.table).1
        phase := .counting args (count.child pid todo p.table).2 }
  | sleep {args : ForkArgs} {count : Count} : p.phase = .counting args count → count.todo = [] →
      args.limit ≤ count.alive.length →
      ForkMove p .sleep { p.reaped count with phase := .counting args ⟨count.alive, [], 0⟩ }
  | fork {args : ForkArgs} {count : Count} {pid : Pid} : p.phase = .counting args count →
      count.todo = [] → count.alive.length < args.limit → pid ≠ 0 → pid ∉ p.table →
      ForkMove p (.fork pid) { p.reaped count with
        children := count.alive ++ [pid], table := p.table.start pid, phase := .idle }
  | forkFails {args : ForkArgs} {count : Count} : p.phase = .counting args count →
      count.todo = [] → count.alive.length < args.limit →
      ForkMove p .forkFails { p.reaped count with
        children := [], exitCode := 0, waitForChildren := args.wait, phase := .idle }
  | controlledExit {exitCode : Int} : p.phase = .idle →
      ForkMove p (.controlledExit exitCode) { p with phase := p.exitPhase exitCode }
  | wait {exitCode : Int} {ecode : Nat} {pid : Pid} {status : Status} :
      p.phase = .waiting exitCode ecode → p.table.lookup pid = some (some status) →
      ForkMove p (.wait pid) { p with
        table := p.table.reap pid, phase := .waiting exitCode (ecode + childEcode status) }
  | exit {exitCode : Int} {ecode : Nat} : p.phase = .waiting exitCode ecode → p.table.keys = [] →
      ForkMove p .exit { p with phase := .exited (exitStatus (exitCode + ecode)) }

theorem ForkStep.move {p p' : Process} {l : ForkLabel} (h : ForkStep p l p') : ForkMove p l p' := by
  unfold ForkStep Process.step at h
  cases l with
  | ends pid status =>
    simp only at h
    split_ifs at h with hruns
    obtain rfl := Option.some.inj h
    exact .ends hruns
  | controlledFork args =>
    simp only at h
    split_ifs at h with hidle
    obtain rfl := Option.some.inj h
    exact .controlledFork hidle
  | waitpid =>
    simp only at h
    split at h
    · rename_i args count hphase
      split at h
      · rename_i pid todo htodo
        obtain rfl := Option.some.inj h
        exact .waitpid hphase htodo
      · cases h
    · cases h
  | sleep =>
    simp only at h
    split at h
    · rename_i args count hphase
      split_ifs at h with hsleep
      obtain rfl := Option.some.inj h
      exact .sleep hphase hsleep.1 (Nat.not_lt.mp hsleep.2)
    · cases h
  | fork pid =>
    simp only at h
    split at h
    · rename_i args count hphase
      split_ifs at h with hfork
      obtain rfl := Option.some.inj h
      exact .fork hphase hfork.1 hfork.2.1 hfork.2.2.1 hfork.2.2.2
    · cases h
  | forkFails =>
    simp only at h
    split at h
    · rename_i args count hphase
      split_ifs at h with hfork
      obtain rfl := Option.some.inj h
      exact .forkFails hphase hfork.1 hfork.2
    · cases h
  | controlledExit exitCode =>
    simp only at h
    split_ifs at h with hidle
    obtain rfl := Option.some.inj h
    exact .controlledExit hidle
  | wait pid =>
    simp only at h
    split at h
    · rename_i exitCode ecode status hphase hlookup
      obtain rfl := Option.some.inj h
      exact .wait hphase hlookup
    · cases h
  | exit =>
    simp only at h
    split at h
    · rename_i exitCode ecode hphase
      split_ifs at h with hkeys
      obtain rfl := Option.some.inj h
      exact .exit hphase hkeys
    · cases h

end Awb.Batch
