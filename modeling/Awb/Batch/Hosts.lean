import Awb.Batch.Fork

/-! `Asim::Batch::List`: jobs that run on the hosts of a list, with a number of slots for each
host. A job is a child that `controlled_fork` starts; it may end before any system call. -/

namespace Awb.Batch
open Children

/-- The hosts, and how many jobs may run on each. -/
structure HostList (Host : Type) where
  hosts : List Host
  slotsPerHost : Nat

/-- Where `submit` is: in `get_free_host` before a host or in the middle of its jobs, in the `wait`
of `scheduler`, or in `controlled_fork`. -/
inductive Stage (Host : Type)
  | scanning (hosts : List Host)
  | checking (host : Host) (todo stillRunning : List Pid) (hosts : List Host)
  | blocked
  | forking (host : Host)

/-- The process between two steps, with the jobs that it knows on each host and the command that is
being submitted. -/
structure Submitter (Host Command : Type) where
  hostJobs : Host → List Pid := fun _ => []
  process : Process := waitingProcess
  submitting : Option (Command × Stage Host) := none

/-- What happens: a job ends, `submit` is called, or it goes on. -/
inductive SubmitLabel (Host Command : Type)
  | ends (pid : Pid) (status : Status)
  | submit (command : Command)
  | visit (host : Host)
  | waitpid
  | visited (host : Host)
  | noFreeHost
  | wait (pid : Option Pid)
  | count
  | sleep
  | start (command : Command) (host : Host) (pid : Pid)

variable {Host Command : Type}

/-- `controlled_fork(1, '/dev/null', $forkname, 0)`. -/
def sshFork : ForkArgs := { wait := false, throttle := 0 }

/-- A system call of `controlled_fork` on behalf of `submit`. -/
def Submitter.forkStep (s : Submitter Host Command) (l : ForkLabel) :
    Option (Submitter Host Command) :=
  match s.submitting with
  | some (_, .forking _) => (s.process.step l).map fun process => { s with process }
  | _ => none

theorem Submitter.forkStep_eq {s s' : Submitter Host Command} {l : ForkLabel}
    (h : s.forkStep l = some s') :
    ∃ command host process, s.submitting = some (command, .forking host) ∧
      ForkStep s.process l process ∧ s' = { s with process } := by
  unfold Submitter.forkStep at h
  split at h
  · rename_i command host hsubmitting
    obtain ⟨process, hprocess, rfl⟩ := Option.map_eq_some_iff.mp h
    exact ⟨command, host, process, hsubmitting, hprocess, rfl⟩
  · cases h

variable [DecidableEq Host] [DecidableEq Command]

/-- The end of the visit of a host: the jobs that still run are kept, and the host is free if there
is room for one more. -/
def HostList.visited (b : HostList Host) (s : Submitter Host Command) (command : Command)
    (host : Host) (stillRunning : List Pid) (hosts : List Host) :
    Option (Submitter Host Command) :=
  let s := { s with hostJobs := Function.update s.hostJobs host stillRunning }
  if stillRunning.length < b.slotsPerHost then
    (s.process.step (.controlledFork sshFork)).map fun process =>
      { s with process, submitting := some (command, .forking host) }
  else some { s with submitting := some (command, .scanning hosts) }

def HostList.step (b : HostList Host) (s : Submitter Host Command) :
    SubmitLabel Host Command → Option (Submitter Host Command)
  | .ends pid status => (s.process.step (.ends pid status)).map fun process => { s with process }
  | .submit command =>
    match s.submitting with
    | none => some { s with submitting := some (command, .scanning b.hosts) }
    | some _ => none
  | .visit host =>
    match s.submitting with
    | some (command, .scanning (host' :: hosts)) =>
      if host' = host then
        some { s with submitting := some (command, .checking host (s.hostJobs host) [] hosts) }
      else none
    | _ => none
  | .waitpid =>
    match s.submitting with
    | some (command, .checking host (pid :: todo) stillRunning hosts) =>
      let (found, table) := s.process.table.waitpid pid
      let stillRunning := if found = .running then stillRunning ++ [pid] else stillRunning
      some { s with
        process := { s.process with table }
        submitting := some (command, .checking host todo stillRunning hosts) }
    | _ => none
  | .visited host =>
    match s.submitting with
    | some (command, .checking host' [] stillRunning hosts) =>
      if host' = host then b.visited s command host stillRunning hosts else none
    | _ => none
  | .noFreeHost =>
    match s.submitting with
    | some (command, .scanning []) => some { s with submitting := some (command, .blocked) }
    | _ => none
  -- `wait` returns -1 at once when there is no child
  | .wait none =>
    match s.submitting with
    | some (command, .blocked) =>
      if s.process.table.keys = [] then
        some { s with submitting := some (command, .scanning b.hosts) }
      else none
    | _ => none
  | .wait (some pid) =>
    match s.submitting, s.process.table.lookup pid with
    | some (command, .blocked), some (some _) =>
      some { s with
        process := { s.process with table := s.process.table.reap pid }
        submitting := some (command, .scanning b.hosts) }
    | _, _ => none
  | .count => s.forkStep .waitpid
  | .sleep => s.forkStep .sleep
  | .start command host pid =>
    match s.submitting with
    | some (command', .forking host') =>
      if command' = command ∧ host' = host then
        (s.process.step (.fork pid)).map fun process =>
          { hostJobs := Function.update s.hostJobs host (s.hostJobs host ++ [pid])
            process
            submitting := none }
      else none
    | _ => none

/-- The steps of the process that submits jobs, and of the jobs. -/
def HostList.Step (b : HostList Host) (s : Submitter Host Command)
    (l : SubmitLabel Host Command) (s' : Submitter Host Command) : Prop := b.step s l = some s'

/-- What a step does, case by case. -/
inductive HostList.Move (b : HostList Host) (s : Submitter Host Command) :
    SubmitLabel Host Command → Submitter Host Command → Prop
  | ends {pid : Pid} {status : Status} {process : Process} :
      ForkStep s.process (.ends pid status) process →
      Move b s (.ends pid status) { s with process }
  | submit {command : Command} : s.submitting = none →
      Move b s (.submit command) { s with submitting := some (command, .scanning b.hosts) }
  | visit {command : Command} {host : Host} {hosts : List Host} :
      s.submitting = some (command, .scanning (host :: hosts)) →
      Move b s (.visit host)
        { s with submitting := some (command, .checking host (s.hostJobs host) [] hosts) }
  | running {command : Command} {host : Host} {pid : Pid} {todo stillRunning : List Pid}
      {hosts : List Host} :
      s.submitting = some (command, .checking host (pid :: todo) stillRunning hosts) →
      s.process.table.Runs pid →
      Move b s .waitpid
        { s with submitting := some (command, .checking host todo (stillRunning ++ [pid]) hosts) }
  | completed {command : Command} {host : Host} {pid : Pid} {todo stillRunning : List Pid}
      {hosts : List Host} :
      s.submitting = some (command, .checking host (pid :: todo) stillRunning hosts) →
      ¬ s.process.table.Runs pid →
      Move b s .waitpid { s with
        process := { s.process with table := s.process.table.reap pid }
        submitting := some (command, .checking host todo stillRunning hosts) }
  | free {command : Command} {host : Host} {stillRunning : List Pid} {hosts : List Host}
      {process : Process} :
      s.submitting = some (command, .checking host [] stillRunning hosts) →
      stillRunning.length < b.slotsPerHost →
      ForkStep s.process (.controlledFork sshFork) process →
      Move b s (.visited host)
        { hostJobs := Function.update s.hostJobs host stillRunning
          process
          submitting := some (command, .forking host) }
  | full {command : Command} {host : Host} {stillRunning : List Pid} {hosts : List Host} :
      s.submitting = some (command, .checking host [] stillRunning hosts) →
      b.slotsPerHost ≤ stillRunning.length →
      Move b s (.visited host) { s with
        hostJobs := Function.update s.hostJobs host stillRunning
        submitting := some (command, .scanning hosts) }
  | noFreeHost {command : Command} : s.submitting = some (command, .scanning []) →
      Move b s .noFreeHost { s with submitting := some (command, .blocked) }
  | noChild {command : Command} : s.submitting = some (command, .blocked) →
      s.process.table.keys = [] →
      Move b s (.wait none) { s with submitting := some (command, .scanning b.hosts) }
  | wait {command : Command} {pid : Pid} {status : Status} :
      s.submitting = some (command, .blocked) → s.process.table.lookup pid = some (some status) →
      Move b s (.wait (some pid)) { s with
        process := { s.process with table := s.process.table.reap pid }
        submitting := some (command, .scanning b.hosts) }
  | count {command : Command} {host : Host} {process : Process} :
      s.submitting = some (command, .forking host) → ForkStep s.process .waitpid process →
      Move b s .count { s with process }
  | sleep {command : Command} {host : Host} {process : Process} :
      s.submitting = some (command, .forking host) → ForkStep s.process .sleep process →
      Move b s .sleep { s with process }
  | start {command : Command} {host : Host} {pid : Pid} {process : Process} :
      s.submitting = some (command, .forking host) → ForkStep s.process (.fork pid) process →
      Move b s (.start command host pid)
        { hostJobs := Function.update s.hostJobs host (s.hostJobs host ++ [pid])
          process
          submitting := none }

variable {b : HostList Host} {s s' : Submitter Host Command} {l : SubmitLabel Host Command}

theorem HostList.Step.move (h : b.Step s l s') : b.Move s l s' := by
  unfold HostList.Step HostList.step at h
  cases l with
  | ends pid status =>
    obtain ⟨process, hprocess, rfl⟩ := Option.map_eq_some_iff.mp h
    exact .ends hprocess
  | submit command =>
    simp only at h
    split at h
    · rename_i hsubmitting
      obtain rfl := Option.some.inj h
      exact .submit hsubmitting
    · cases h
  | visit host =>
    simp only at h
    split at h
    · rename_i command host' hosts hsubmitting
      split_ifs at h with hhost
      subst hhost
      obtain rfl := Option.some.inj h
      exact .visit hsubmitting
    · cases h
  | waitpid =>
    simp only at h
    split at h
    · rename_i command host pid todo stillRunning hosts hsubmitting
      by_cases hruns : s.process.table.Runs pid
      · rw [Table.waitpid_running hruns] at h
        obtain rfl := Option.some.inj h
        exact .running hsubmitting hruns
      · obtain ⟨hfound, htable⟩ := Table.waitpid_of_not_runs hruns
        simp only [htable, if_neg hfound] at h
        obtain rfl := Option.some.inj h
        exact .completed hsubmitting hruns
    · cases h
  | visited host =>
    simp only at h
    split at h
    · rename_i command host' stillRunning hosts hsubmitting
      split_ifs at h with hhost
      subst hhost
      unfold HostList.visited at h
      simp only at h
      split_ifs at h with hroom
      · obtain ⟨process, hprocess, rfl⟩ := Option.map_eq_some_iff.mp h
        exact .free hsubmitting hroom hprocess
      · obtain rfl := Option.some.inj h
        exact .full hsubmitting (Nat.not_lt.mp hroom)
    · cases h
  | noFreeHost =>
    simp only at h
    split at h
    · rename_i command hsubmitting
      obtain rfl := Option.some.inj h
      exact .noFreeHost hsubmitting
    · cases h
  | wait pid? =>
    cases pid? with
    | none =>
      simp only at h
      split at h
      · rename_i command hsubmitting
        split_ifs at h with hkeys
        obtain rfl := Option.some.inj h
        exact .noChild hsubmitting hkeys
      · cases h
    | some pid =>
      simp only at h
      split at h
      · rename_i command status hsubmitting hlookup
        obtain rfl := Option.some.inj h
        exact .wait hsubmitting hlookup
      · cases h
  | count =>
    obtain ⟨command, host, process, hsubmitting, hstep, rfl⟩ := Submitter.forkStep_eq h
    exact .count hsubmitting hstep
  | sleep =>
    obtain ⟨command, host, process, hsubmitting, hstep, rfl⟩ := Submitter.forkStep_eq h
    exact .sleep hsubmitting hstep
  | start command host pid =>
    simp only at h
    split at h
    · rename_i command' host' hsubmitting
      split_ifs at h with heq
      obtain ⟨rfl, rfl⟩ := heq
      obtain ⟨process, hprocess, rfl⟩ := Option.map_eq_some_iff.mp h
      exact .start hsubmitting hprocess
    · cases h

end Awb.Batch
