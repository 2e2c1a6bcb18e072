import Awb.Classic.Reachable
import Awb.Workbench.Threads

/-! The workbench together with the scheduler loop. `AWB_InformProgress` runs the workbench over
the pending progress, one event and one benchmark command at a time; the feeder's notifications
come at any time. -/

namespace Awb.Workbench
open Awb.Classic

/-- How the simulation can end other than by leaving the loop. -/
inductive Halt
  | fault (f : Fault)
  | tclError (message : String)
  | nullThread
  deriving DecidableEq, Repr

inductive Label
  | notify (item : WorkItem)
  | loop (l : Awb.Classic.Label)
  | event (p : Progress)
  | eval (cmd : Cmd) (counters : Counters)
  deriving DecidableEq, Repr

/-- The commands after which `ProcessBmCmds` returns. -/
def Cmd.returns : Cmd → Bool
  | awbRun .. | awbExit => true
  | _ => false

def usesNull : WorkKind → Bool
  | .thdSkip none .. => true
  | _ => false

/-- The notifications of the feeder. -/
def isNotification : WorkKind → Bool
  | .thdBegin _ | .thdEnd _ | .thdUnblock _ | .thdBlock .. => true
  | _ => false

namespace Bench

/-- The workbench has not acknowledged all progress yet. -/
def busy (b : Bench) : Bool := b.processing || !b.pendingProgress.isEmpty

/-- One turn of the workbench. Without a command left, the interactive shell takes over. -/
def turn (host : Host) (b : Bench) : Except Halt (Option (Label × Bench)) :=
  if b.processing then
    match b.bmCmds with
    | [] => .ok none
    | cmd :: rest =>
      match { b with bmCmds := rest }.eval host cmd with
      | .ok b' => .ok (some (.eval cmd b.loop.system, { b' with processing := !cmd.returns }))
      | .error message => .error (.tclError message)
  else
    match b.pendingProgress with
    | [] => .ok none
    | p :: rest =>
      match { b with pendingProgress := rest }.batchProgress host p with
      | .ok b' => .ok (some (.event p, b'))
      | .error message => .error (.tclError message)

/-- One turn of the scheduler loop. `SYS_Execute` returns at once from a system that was told to
break; `SYS_ClearBreak` comes when the work list is empty. -/
def loopTurn (host : Host) (executed : Counters) (b : Bench) :
    Except Halt (Option (Label × Bench)) :=
  match loopStep b.loop (if b.sysBreak then b.loop.system else executed) with
  | .error f => .error (.fault f)
  | .ok none => .ok none
  | .ok (some (l, loop)) =>
    match l with
    | .process item _ _ =>
      if usesNull item.kind then .error .nullThread
      else .ok (some (.loop l, { b with
        loop, pendingProgress := b.pendingProgress ++ host.cmdProgress item.kind }))
    | .drained => .ok (some (.loop l, { b with loop, sysBreak := false }))
    | _ => .ok (some (.loop l, { b with loop }))

def step (host : Host) (executed : Counters) (b : Bench) : Except Halt (Option (Label × Bench)) :=
  if b.loop.phase = .inform ∧ b.busy then b.turn host else b.loopTurn host executed

def notification (kind : WorkKind) : Command := ActionTime.now.command kind

end Bench

/-- A notification arrives, or the loop or the workbench takes its next turn. -/
inductive Step (host : Host) (b : Bench) : Label → Bench → Prop
  | notify {kind : WorkKind} : isNotification kind = true →
      Step host b (.notify (.new b.loop.nextId (Bench.notification kind)))
        (b.command (Bench.notification kind))
  | turn {l : Label} {b' : Bench} (executed : Counters) :
      b.step host executed = .ok (some (l, b')) → Step host b l b'

/-- The workbench after `AwbInit`, with what the feeder has notified before. -/
def Started (host : Host) (script : List Cmd) (b : Bench) : Prop :=
  ∃ (current system : Counters) (kinds : List WorkKind),
    (∀ kind ∈ kinds, isNotification kind = true) ∧
    ((kinds.map Bench.notification).foldl Bench.command
      { loop := start current system }).awbInit host script = .ok b

/-- The steps of the loop that neither handle an item nor execute. -/
def isQuiet : Awb.Classic.Label → Bool
  | .sample | .leave | .drain .. | .idle | .wait => true
  | _ => false

/-- What a step does, case by case. -/
inductive Move (host : Host) (b : Bench) : Label → Bench → Prop
  | notify {kind : WorkKind} : isNotification kind = true →
      Move host b (.notify (.new b.loop.nextId (Bench.notification kind)))
        (b.command (Bench.notification kind))
  | eval {cmd : Cmd} {rest : List Cmd} {b' : Bench} : b.loop.phase = .inform →
      b.processing = true → b.bmCmds = cmd :: rest →
      { b with bmCmds := rest }.eval host cmd = .ok b' →
      Move host b (.eval cmd b.loop.system) { b' with processing := !cmd.returns }
  | event {p : Progress} {rest : List Progress} {b' : Bench} : b.loop.phase = .inform →
      b.processing = false → b.pendingProgress = p :: rest →
      { b with pendingProgress := rest }.batchProgress host p = .ok b' →
      Move host b (.event p) b'
  | quiet {l : Awb.Classic.Label} {loop : LoopState} : isQuiet l = true →
      (b.loop.phase = .inform → b.busy = false) → Awb.Classic.Step b.loop l loop →
      Move host b (.loop l) { b with loop }
  | drained {loop : LoopState} : Awb.Classic.Step b.loop .drained loop →
      Move host b (.loop .drained) { b with loop, sysBreak := false }
  | process {item : WorkItem} {current : Counters} {r : Option Scheduled} {loop : LoopState} :
      usesNull item.kind = false → Awb.Classic.Step b.loop (.process item current r) loop →
      Move host b (.loop (.process item current r))
        { b with loop, pendingProgress := b.pendingProgress ++ host.cmdProgress item.kind }
  | execute {limits executed : Counters} {loop : LoopState} : b.busy = false →
      (b.sysBreak = true → executed = b.loop.system) →
      Awb.Classic.Step b.loop (.execute limits executed) loop →
      Move host b (.loop (.execute limits executed)) { b with loop }

variable {host : Host} {b b' : Bench} {l : Label}

/-- A turn of the loop executes what it was given, or does not execute. -/
theorem loopStep_execute {ctl ctl' : LoopState} {executed executed' limits : Counters}
    (h : loopStep ctl executed = .ok (some (.execute limits executed', ctl'))) :
    executed' = executed ∧ ctl.phase = .inform := by
  unfold loopStep at h
  cases hp : ctl.phase with
  | inform =>
    simp only [hp] at h
    split_ifs at h
    · cases h
    · split at h
      · cases h
      · split_ifs at h
        cases h
        exact ⟨rfl, rfl⟩
  | top =>
    simp only [hp] at h
    split_ifs at h
    · cases h
    · cases h
  | drain =>
    simp only [hp] at h
    split at h
    · cases h
    · split at h
      · cases h
      · cases h
  | ready =>
    simp only [hp] at h
    split at h
    · cases h
    · cases h
    · split_ifs at h
      · split at h
        · cases h
        · cases h
      · cases h
  | exited =>
    simp only [hp] at h
    cases h

/-- No turn of the loop is an arrival. -/
theorem loopStep_ne_arrive {ctl ctl' : LoopState} {executed : Counters} {item : WorkItem} :
    loopStep ctl executed ≠ .ok (some (.arrive item, ctl')) := by
  intro h
  unfold loopStep at h
  split at h
  · split_ifs at h
    · cases h
    · cases h
  · split at h
    · cases h
    · split at h
      · cases h
      · cases h
  · split at h
    · cases h
    · cases h
    · simp only at h
      split_ifs at h
      · split at h
        · cases h
        · cases h
      · cases h
  · split_ifs at h
    · cases h
    · split at h
      · cases h
      · split_ifs at h
        cases h
  · cases h

theorem Step.move (h : Step host b l b') : Move host b l b' := by
  cases h with
  | notify hkind => exact .notify hkind
  | turn executed h =>
    unfold Bench.step at h
    split_ifs at h with hbusy
    · obtain ⟨hphase, -⟩ := hbusy
      unfold Bench.turn at h
      split_ifs at h with hprocessing
      · cases hcmds : b.bmCmds with
        | nil => simp [hcmds] at h
        | cons cmd rest =>
          simp only [hcmds] at h
          split at h
          · rename_i b'' heval
            cases h
            exact .eval hphase hprocessing hcmds heval
          · cases h
      · cases hpending : b.pendingProgress with
        | nil => simp [hpending] at h
        | cons p rest =>
          simp only [hpending] at h
          split at h
          · rename_i b'' hevent
            cases h
            exact .event hphase (by simpa using hprocessing) hpending hevent
          · cases h
    · have hidle : b.loop.phase = .inform → b.busy = false := by
        intro hphase
        by_contra hb
        exact hbusy ⟨hphase, by simpa using hb⟩
      unfold Bench.loopTurn at h
      split at h
      · cases h
      · cases h
      · rename_i l' loop hl
        have hstep : Awb.Classic.Step b.loop l' loop := .loop _ hl
        cases l' with
        | process item current r =>
          simp only at h
          split_ifs at h with hnull
          cases h
          exact .process (by simpa using hnull) hstep
        | drained =>
          cases h
          exact .drained hstep
        | execute limits executed' =>
          cases h
          obtain ⟨hexecuted, hphase⟩ := loopStep_execute hl
          refine .execute (hidle hphase) ?_ hstep
          intro hbreak
          rw [hexecuted, if_pos hbreak]
        | arrive item => exact absurd hl loopStep_ne_arrive
        | sample | leave | idle | wait | drain =>
          cases h
          exact .quiet rfl hidle hstep

/-- What comes from outside: a notification, or the counts that `SYS_Execute` leaves if the next
turn calls it. -/
inductive Input
  | notify (kind : WorkKind)
  | turn (executed : Counters)

/-- The step that an input brings. -/
def Bench.next (host : Host) (b : Bench) : Input → Option (Label × Bench)
  | .notify kind =>
    if isNotification kind then
      some (.notify (.new b.loop.nextId (Bench.notification kind)),
        b.command (Bench.notification kind))
    else none
  | .turn executed =>
    match b.step host executed with
    | .ok r => r
    | .error _ => none

theorem Bench.step_of_next {input : Input} (h : b.next host input = some (l, b')) :
    Step host b l b' := by
  cases input with
  | notify kind =>
    simp only [next] at h
    split_ifs at h with hkind
    obtain ⟨rfl, rfl⟩ := Prod.mk.inj (Option.some.inj h)
    exact .notify hkind
  | turn executed =>
    simp only [next] at h
    split at h
    · rename_i r hr
      exact .turn executed (hr.trans (congrArg Except.ok h))
    · cases h

theorem Bench.run_of_follow {inputs : List Input} {tr : List Label}
    (h : Lts.follow (Bench.next host) b inputs = some (tr, b')) : Lts.Run (Step host) b tr b' := by
  have hnext : ∀ b i l b', Bench.next host b i = some (l, b') → Step host b l b' :=
    fun _ _ _ _ h => step_of_next h
  exact Lts.Run.of_follow hnext h

end Awb.Workbench
