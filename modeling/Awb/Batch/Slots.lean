import Awb.Batch.Hosts

/-! What `submit` knows about its jobs: every unfinished job is in the list of its host, so no host
has more of them than slots; a job that has ended leaves the list when its host is visited, and
every job is started. -/

namespace Awb.Batch
open Children

/-- A job that has been started. -/
structure Job (Host Command : Type) where
  command : Command
  host : Host
  pid : Pid

variable {Host Command : Type}

def unfinishedAfter (jobs : List (Job Host Command)) :
    SubmitLabel Host Command → List (Job Host Command)
  | .ends pid _ => jobs.filter fun job => job.pid != pid
  | .start command host pid => jobs ++ [⟨command, host, pid⟩]
  | _ => jobs

/-- The jobs that have been started and have not ended, oldest first. -/
def unfinished (tr : List (SubmitLabel Host Command)) : List (Job Host Command) :=
  tr.foldl unfinishedAfter []

def unfinishedPids (tr : List (SubmitLabel Host Command)) : List Pid :=
  (unfinished tr).map Job.pid

/-- How many unfinished jobs a host has. -/
def load [DecidableEq Host] (tr : List (SubmitLabel Host Command)) (host : Host) : Nat :=
  (unfinished tr).countP fun job => job.host = host

def SubmitLabel.submittedCommand : SubmitLabel Host Command → Option Command
  | .submit command => some command
  | _ => none

def SubmitLabel.startedCommand : SubmitLabel Host Command → Option Command
  | .start command _ _ => some command
  | _ => none

/-- The commands that have been submitted, and those of the jobs that have been started. -/
def submitted (tr : List (SubmitLabel Host Command)) : List Command :=
  tr.filterMap SubmitLabel.submittedCommand

def started (tr : List (SubmitLabel Host Command)) : List Command :=
  tr.filterMap SubmitLabel.startedCommand

variable {tr : List (SubmitLabel Host Command)} {l : SubmitLabel Host Command}

theorem unfinished_append_singleton : unfinished (tr ++ [l]) = unfinishedAfter (unfinished tr) l :=
  List.foldl_append

section Pids
variable {table : Table}

/-- The unfinished jobs are the children that run, each with a process id of its own. -/
structure Tracked (tr : List (SubmitLabel Host Command)) (table : Table) : Prop where
  nodup : (unfinishedPids tr).Nodup
  runs (pid : Pid) : table.Runs pid ↔ pid ∈ unfinishedPids tr

theorem Tracked.quiet {table' : Table} (h : Tracked tr table)
    (hl : ∀ jobs, unfinishedAfter jobs l = jobs)
    (hruns : ∀ pid, table'.Runs pid ↔ table.Runs pid) : Tracked (tr ++ [l]) table' := by
  have hpids : unfinishedPids (tr ++ [l]) = unfinishedPids tr := by
    rw [unfinishedPids, unfinished_append_singleton, hl, unfinishedPids]
  refine ⟨?_, ?_⟩
  · rw [hpids]
    exact h.nodup
  · intro pid
    rw [hpids, hruns pid]
    exact h.runs pid

theorem unfinishedPids_ends {pid : Pid} {status : Status} :
    unfinishedPids (tr ++ [.ends pid status]) = (unfinishedPids tr).filter (· != pid) := by
  rw [unfinishedPids, unfinished_append_singleton, unfinishedPids, List.filter_map]
  rfl

theorem Tracked.ends (h : Tracked tr table) {pid : Pid} {status : Status} :
    Tracked (tr ++ [.ends pid status]) (table.finish pid status) := by
  refine ⟨?_, ?_⟩
  · rw [unfinishedPids_ends]
    exact h.nodup.filter _
  · intro pid'
    rw [unfinishedPids_ends, Table.runs_finish, h.runs pid', List.mem_filter, bne_iff_ne,
      and_comm]

theorem unfinishedPids_start {command : Command} {host : Host} {pid : Pid} :
    unfinishedPids (tr ++ [.start command host pid]) = unfinishedPids tr ++ [pid] := by
  rw [unfinishedPids, unfinished_append_singleton, unfinishedPids]
  exact List.map_append

theorem Tracked.start (h : Tracked tr table) {command : Command} {host : Host} {pid : Pid}
    (hpid : pid ∉ table) : Tracked (tr ++ [.start command host pid]) (table.start pid) := by
  have hnew : pid ∉ unfinishedPids tr := by
    intro hmem
    have hruns : table.Runs pid := (h.runs pid).mpr hmem
    exact hpid (AList.lookup_isSome.mp (by rw [hruns]; rfl))
  refine ⟨?_, ?_⟩
  · rw [unfinishedPids_start]
    exact List.nodup_append.mpr ⟨h.nodup, List.nodup_singleton pid, by
      intro a ha c hc
      obtain rfl := List.mem_singleton.mp hc
      exact fun heq => hnew (heq ▸ ha)⟩
  · intro pid'
    rw [unfinishedPids_start, Table.runs_start hpid, h.runs pid', List.mem_append,
      List.mem_singleton, or_comm]

/-- No child runs when every job has ended. -/
theorem Tracked.not_runs {pid : Pid} (h : Tracked tr table) (hnone : unfinished tr = []) :
    ¬ table.Runs pid := by
  intro hpid
  have hmem := (h.runs pid).mp hpid
  rw [unfinishedPids, hnone] at hmem
  cases hmem

end Pids

variable [DecidableEq Host]

/-- The jobs that occupy the slots of a host: in the middle of its visit, those that ran and those
that are left to be checked. -/
def Submitter.slots (s : Submitter Host Command) (host : Host) : List Pid :=
  match s.submitting with
  | some (_, .checking host' todo stillRunning _) =>
    if host = host' then stillRunning ++ todo else s.hostJobs host
  | _ => s.hostJobs host

/-- What is known at each stage. -/
def StageOk (b : HostList Host) (process : Process) (hostJobs : Host → List Pid) :
    Option (Command × Stage Host) → Prop
  | none => process.phase = .idle
  | some (_, .scanning hosts) => process.phase = .idle ∧ hosts ⊆ b.hosts
  | some (_, .checking host _ _ hosts) => process.phase = .idle ∧ host ∈ b.hosts ∧ hosts ⊆ b.hosts
  | some (_, .blocked) => process.phase = .idle
  | some (_, .forking host) =>
    (∃ count, process.phase = .counting sshFork count) ∧ host ∈ b.hosts ∧
      (hostJobs host).length < b.slotsPerHost

/-- The invariant of the accounting. -/
structure Accounted (b : HostList Host) (tr : List (SubmitLabel Host Command))
    (s : Submitter Host Command) : Prop where
  tracked : Tracked tr s.process.table
  held : ∀ job ∈ unfinished tr, job.pid ∈ s.slots job.host
  kept (host : Host) : (s.slots host).Sublist (s.hostJobs host)
  room (host : Host) : (s.hostJobs host).length ≤ b.slotsPerHost
  stage : StageOk b s.process s.hostJobs s.submitting

variable {b : HostList Host} {s s' : Submitter Host Command} {host : Host}

theorem Submitter.slots_checking {command : Command} {todo stillRunning : List Pid}
    {hosts : List Host}
    (h : s.submitting = some (command, .checking host todo stillRunning hosts)) (host' : Host) :
    s.slots host' = if host' = host then stillRunning ++ todo else s.hostJobs host' := by
  rw [Submitter.slots, h]

/-- The jobs of the host at the end of its visit. -/
theorem Submitter.slots_visited {command : Command} {stillRunning : List Pid} {hosts : List Host}
    (h : s.submitting = some (command, .checking host [] stillRunning hosts)) (host' : Host) :
    Function.update s.hostJobs host stillRunning host' = s.slots host' := by
  rw [Submitter.slots_checking h, List.append_nil, Function.update_apply]

/-- A step that keeps the unfinished jobs and what occupies the slots. -/
theorem Accounted.quiet (h : Accounted b tr s) (hl : ∀ jobs, unfinishedAfter jobs l = jobs)
    (hruns : ∀ pid, s'.process.table.Runs pid ↔ s.process.table.Runs pid)
    (hslots : ∀ host, s'.slots host = s.slots host)
    (hjobs : ∀ host, s'.hostJobs host = s.hostJobs host ∨ s'.hostJobs host = s.slots host)
    (hstage : StageOk b s'.process s'.hostJobs s'.submitting) : Accounted b (tr ++ [l]) s' where
  tracked := h.tracked.quiet hl hruns
  held job hjob := by
    rw [unfinished_append_singleton, hl] at hjob
    rw [hslots]
    exact h.held job hjob
  kept host := by
    rw [hslots]
    rcases hjobs host with heq | heq
    · rw [heq]
      exact h.kept host
    · rw [heq]
  room host := by
    rcases hjobs host with heq | heq
    · rw [heq]
      exact h.room host
    · rw [heq]
      exact (h.kept host).length_le.trans (h.room host)
  stage := hstage

theorem Count.child_runs {pid pid' : Pid} {todo : List Pid} {table : Table} {count : Count} :
    (count.child pid todo table).1.Runs pid' ↔ table.Runs pid' := by
  unfold Count.child Table.waitpid
  cases hlookup : table.lookup pid with
  | none => rfl
  | some found =>
    cases found with
    | none => rfl
    | some status =>
      refine Table.runs_reap ?_
      intro hruns
      cases hlookup.symm.trans hruns

variable [DecidableEq Command]

theorem Accounted.step (h : Accounted b tr s) (hstep : b.Step s l s') :
    Accounted b (tr ++ [l]) s' := by
  have hstage := h.stage
  cases hstep.move with
  | @ends pid status process hprocess =>
    cases hprocess.move with
    | ends hruns =>
    refine ⟨h.tracked.ends, ?_, h.kept, h.room, hstage⟩
    intro job hjob
    rw [unfinished_append_singleton] at hjob
    exact h.held job (List.mem_of_mem_filter hjob)
  | submit hsubmitting =>
    rw [hsubmitting] at hstage
    refine h.quiet (fun _ => rfl) (fun _ => Iff.rfl) ?_ (fun _ => Or.inl rfl)
      ⟨hstage, List.Subset.refl _⟩
    intro host
    rw [Submitter.slots, Submitter.slots, hsubmitting]
  | @visit command host hosts hsubmitting =>
    rw [hsubmitting] at hstage
    obtain ⟨hidle, hhosts⟩ := hstage
    refine h.quiet (fun _ => rfl) (fun _ => Iff.rfl) ?_ (fun _ => Or.inl rfl)
      ⟨hidle, hhosts List.mem_cons_self, fun host' hhost' => hhosts (List.mem_cons_of_mem _ hhost')⟩
    intro host'
    rw [Submitter.slots, Submitter.slots, hsubmitting]
    simp only [List.nil_append]
    split_ifs with heq
    · rw [heq]
    · rfl
  | running hsubmitting hruns =>
    rw [hsubmitting] at hstage
    refine h.quiet (fun _ => rfl) (fun _ => Iff.rfl) ?_ (fun _ => Or.inl rfl) hstage
    intro host'
    rw [Submitter.slots, Submitter.slots, hsubmitting]
    simp only [List.append_assoc, List.singleton_append]
  | @completed command host pid todo stillRunning hosts hsubmitting hruns =>
    rw [hsubmitting] at hstage
    have hbefore := Submitter.slots_checking hsubmitting
    have hafter : ∀ host', Submitter.slots { s with
        process := { s.process with table := s.process.table.reap pid }
        submitting := some (command, .checking host todo stillRunning hosts) } host' =
        if host' = host then stillRunning ++ todo else s.hostJobs host' :=
      Submitter.slots_checking rfl
    refine ⟨h.tracked.quiet (fun _ => rfl) fun _ => Table.runs_reap hruns, ?_, ?_, h.room, hstage⟩
    · intro job hjob
      rw [unfinished_append_singleton] at hjob
      have hheld := h.held job hjob
      -- the job still runs, so it is not the one that is dropped
      have hpid : job.pid ≠ pid := by
        rintro rfl
        exact hruns ((h.tracked.runs _).mpr (List.mem_map_of_mem hjob))
      rw [hbefore] at hheld
      rw [hafter]
      split_ifs at hheld ⊢ with hhost
      · simpa [hpid] using hheld
      · exact hheld
    · intro host'
      have hkept := h.kept host'
      rw [hbefore] at hkept
      rw [hafter]
      split_ifs at hkept ⊢ with hhost
      · exact (List.sublist_append_right [pid] todo).append_left stillRunning |>.trans hkept
      · exact hkept
  | @free command host stillRunning hosts process hsubmitting hroom hprocess =>
    cases hprocess.move with
    | controlledFork hidle =>
    rw [hsubmitting] at hstage
    have hvisited := Submitter.slots_visited hsubmitting
    refine h.quiet (fun _ => rfl) (fun _ => Iff.rfl) hvisited (fun host' => Or.inr (hvisited host'))
      ⟨⟨_, rfl⟩, hstage.2.1, ?_⟩
    change (Function.update s.hostJobs host stillRunning host).length < b.slotsPerHost
    rw [Function.update_self]
    exact hroom
  | full hsubmitting hfull =>
    rw [hsubmitting] at hstage
    have hvisited := Submitter.slots_visited hsubmitting
    exact h.quiet (fun _ => rfl) (fun _ => Iff.rfl) hvisited (fun host' => Or.inr (hvisited host'))
      ⟨hstage.1, hstage.2.2⟩
  | noFreeHost hsubmitting =>
    rw [hsubmitting] at hstage
    refine h.quiet (fun _ => rfl) (fun _ => Iff.rfl) ?_ (fun _ => Or.inl rfl) hstage.1
    intro host
    rw [Submitter.slots, Submitter.slots, hsubmitting]
  | noChild hsubmitting hkeys =>
    rw [hsubmitting] at hstage
    refine h.quiet (fun _ => rfl) (fun _ => Iff.rfl) ?_ (fun _ => Or.inl rfl)
      ⟨hstage, List.Subset.refl _⟩
    intro host
    rw [Submitter.slots, Submitter.slots, hsubmitting]
  | wait hsubmitting hlookup =>
    rw [hsubmitting] at hstage
    refine h.quiet (fun _ => rfl) ?_ ?_ (fun _ => Or.inl rfl) ⟨hstage, List.Subset.refl _⟩
    · intro pid
      exact Table.runs_reap fun hruns => by cases hlookup.symm.trans hruns
    · intro host
      rw [Submitter.slots, Submitter.slots, hsubmitting]
  | count hsubmitting hprocess =>
    cases hprocess.move with
    | waitpid hphase htodo =>
    rw [hsubmitting] at hstage
    obtain ⟨⟨count, hcount⟩, hhost⟩ := hstage
    obtain ⟨rfl, rfl⟩ := Phase.counting.inj (hcount.symm.trans hphase)
    refine h.quiet (fun _ => rfl) (fun _ => Count.child_runs) (fun _ => rfl)
      (fun _ => Or.inl rfl) ?_
    rw [hsubmitting]
    exact ⟨⟨_, rfl⟩, hhost⟩
  | sleep hsubmitting hprocess =>
    cases hprocess.move with
    | sleep hphase htodo hlimit =>
    rw [hsubmitting] at hstage
    obtain ⟨⟨count, hcount⟩, hhost⟩ := hstage
    obtain ⟨rfl, rfl⟩ := Phase.counting.inj (hcount.symm.trans hphase)
    refine h.quiet (fun _ => rfl) (fun _ => Iff.rfl) (fun _ => rfl) (fun _ => Or.inl rfl) ?_
    rw [hsubmitting]
    exact ⟨⟨_, rfl⟩, hhost⟩
  | @start command host pid process hsubmitting hprocess =>
    cases hprocess.move with
    | fork hphase htodo hlimit hpid hnew =>
    rw [hsubmitting] at hstage
    obtain ⟨-, -, hroom⟩ := hstage
    have hslots : s.slots = s.hostJobs := by
      funext host'
      rw [Submitter.slots, hsubmitting]
    refine ⟨h.tracked.start hnew, ?_, fun host' => List.Sublist.refl _, ?_, rfl⟩
    · intro job hjob
      rw [unfinished_append_singleton] at hjob
      change job.pid ∈ Function.update s.hostJobs host (s.hostJobs host ++ [pid]) job.host
      rw [Function.update_apply]
      rcases List.mem_append.mp hjob with hold | hjob
      · have hheld := h.held job hold
        rw [hslots] at hheld
        split_ifs with hhost
        · exact List.mem_append_left [pid] (hhost ▸ hheld)
        · exact hheld
      · obtain rfl := List.mem_singleton.mp hjob
        rw [if_pos rfl]
        exact List.mem_append_right _ (List.mem_singleton_self pid)
    · intro host'
      change (Function.update s.hostJobs host (s.hostJobs host ++ [pid]) host').length ≤ _
      rw [Function.update_apply]
      split_ifs with hhost
      · rw [List.length_append, List.length_singleton]
        exact hroom
      · exact h.room host'

theorem Accounted.of_run (run : Lts.Run b.Step {} tr s) : Accounted b tr s := by
  refine run.invariant (Accounted b) ⟨⟨List.nodup_nil, fun pid => ?_⟩, ?_, ?_, ?_, rfl⟩
    fun tr t l u => Accounted.step
  · constructor
    · intro hruns
      cases hruns
    · intro hmem
      cases hmem
  · intro job hjob
    cases hjob
  · exact fun host => List.Sublist.refl _
  · exact fun host => Nat.zero_le _

omit [DecidableEq Command] in
/-- The unfinished jobs of a host occupy as many of its slots. -/
theorem Accounted.load_le (h : Accounted b tr s) (host : Host) :
    load tr host ≤ (s.slots host).length := by
  let jobs := (unfinished tr).filter fun job => job.host = host
  have hsub : (jobs.map Job.pid).Sublist (unfinishedPids tr) := List.filter_sublist.map Job.pid
  have hnodup : (jobs.map Job.pid).Nodup := h.tracked.nodup.sublist hsub
  have hheld : jobs.map Job.pid ⊆ s.slots host := by
    intro pid hpid
    obtain ⟨job, hjob, rfl⟩ := List.mem_map.mp hpid
    obtain ⟨hmem, hhost⟩ := List.mem_filter.mp hjob
    obtain rfl : job.host = host := of_decide_eq_true hhost
    exact h.held job hmem
  have hlength := (hnodup.subperm hheld).length_le
  rw [List.length_map] at hlength
  rwa [load, List.countP_eq_length_filter]

/-! ### Every job once -/

/-- The commands that are submitted are those of the jobs that have been started, and the one that
is being submitted. -/
def Submitter.pending (s : Submitter Host Command) : List Command :=
  (s.submitting.map Prod.fst).toList

theorem started_step (h : started tr ++ s.pending = submitted tr) (hstep : b.Step s l s') :
    started (tr ++ [l]) ++ s'.pending = submitted (tr ++ [l]) := by
  have hstarted : started (tr ++ [l]) = started tr ++ l.startedCommand.toList := by
    rw [started, List.filterMap_append]
    cases hl : l.startedCommand <;> simp [started, hl]
  have hsubmitted : submitted (tr ++ [l]) = submitted tr ++ l.submittedCommand.toList := by
    rw [submitted, List.filterMap_append]
    cases hl : l.submittedCommand <;> simp [submitted, hl]
  rw [hstarted, hsubmitted, ← h, List.append_assoc, List.append_assoc]
  congr 1
  unfold Submitter.pending
  cases hstep.move with
  | ends _ => simp [SubmitLabel.startedCommand, SubmitLabel.submittedCommand]
  | submit hsubmitting | visit hsubmitting | running hsubmitting | completed hsubmitting
  | free hsubmitting | full hsubmitting | noFreeHost hsubmitting | noChild hsubmitting
  | wait hsubmitting | count hsubmitting | sleep hsubmitting | start hsubmitting =>
    rw [hsubmitting]
    rfl

/-! ### Slots become free -/

variable {pid : Pid}

omit [DecidableEq Command] in
theorem Accounted.slots_subset (h : Accounted b tr s) (host : Host) :
    s.slots host ⊆ s.hostJobs host := (h.kept host).subset

/-- A child that is not in the list of a host gets there only as a new job. -/
theorem Accounted.absent (h : Accounted b tr s) (hstep : b.Step s l s')
    (hl : ∀ command, l ≠ .start command host pid) (hpid : pid ∉ s.hostJobs host) :
    pid ∉ s'.hostJobs host := by
  cases hstep.move with
  | free hsubmitting | full hsubmitting =>
    intro hmem
    dsimp only at hmem
    rw [Submitter.slots_visited hsubmitting] at hmem
    exact hpid (h.slots_subset host hmem)
  | @start command host' pid' _ hsubmitting =>
    intro hmem
    dsimp only at hmem
    rw [Function.update_apply] at hmem
    split_ifs at hmem with hhost
    · subst hhost
      rcases List.mem_append.mp hmem with hold | hnew
      · exact hpid hold
      · obtain rfl := List.mem_singleton.mp hnew
        exact hl command rfl
    · exact hpid hmem
  | ends | submit | visit | running | completed | noFreeHost | noChild | wait | count | sleep =>
    exact hpid

/-- In the middle of the visit of its host, a child that does not run is not kept. -/
def Dropped (host : Host) (pid : Pid) (s : Submitter Host Command) : Prop :=
  ¬ s.process.table.Runs pid ∧ ∃ command todo stillRunning hosts,
    s.submitting = some (command, .checking host todo stillRunning hosts) ∧ pid ∉ stillRunning

theorem Dropped.step (h : Dropped host pid s) (hstep : b.Step s l s') :
    Dropped host pid s' ∨ (l = .visited host ∧ pid ∉ s'.hostJobs host) := by
  obtain ⟨hruns, command, todo, stillRunning, hosts, hchecking, hpid⟩ := h
  cases hstep.move with
  | @ends pid' status process hprocess =>
    cases hprocess.move with
    | ends hruns' =>
    refine Or.inl ⟨?_, command, todo, stillRunning, hosts, hchecking, hpid⟩
    intro hafter
    exact hruns (Table.runs_finish.mp hafter).2
  | running hsubmitting hruns' =>
    cases hchecking.symm.trans hsubmitting
    refine Or.inl ⟨hruns, _, _, _, _, rfl, ?_⟩
    intro hmem
    rcases List.mem_append.mp hmem with hold | hnew
    · exact hpid hold
    · obtain rfl := List.mem_singleton.mp hnew
      exact hruns hruns'
  | completed hsubmitting hruns' =>
    cases hchecking.symm.trans hsubmitting
    refine Or.inl ⟨?_, _, _, _, _, rfl, hpid⟩
    exact fun hafter => hruns ((Table.runs_reap hruns').mp hafter)
  | free hsubmitting | full hsubmitting =>
    cases hchecking.symm.trans hsubmitting
    refine Or.inr ⟨rfl, ?_⟩
    change pid ∉ Function.update s.hostJobs host stillRunning host
    rwa [Function.update_self]
  | submit hsubmitting | visit hsubmitting | noFreeHost hsubmitting | noChild hsubmitting
  | wait hsubmitting | count hsubmitting | sleep hsubmitting | start hsubmitting =>
    cases hchecking.symm.trans hsubmitting

theorem absent_run {tr' : List (SubmitLabel Host Command)} (before : Lts.Run b.Step {} tr s)
    (run : Lts.Run b.Step s tr' s') (hstart : ∀ command, .start command host pid ∉ tr')
    (hpid : pid ∉ s.hostJobs host) : pid ∉ s'.hostJobs host := by
  induction run with
  | nil => exact hpid
  | @snoc tr' t u l run hstep ih =>
    have habsent := ih fun command hmem => hstart command (List.mem_append_left [l] hmem)
    refine (Accounted.of_run (before.trans run)).absent hstep ?_ habsent
    rintro command rfl
    exact hstart command (List.mem_append_right tr' List.mem_cons_self)

/-- Through the visit and after it. -/
theorem dropped_run {tr' : List (SubmitLabel Host Command)} (before : Lts.Run b.Step {} tr s)
    (run : Lts.Run b.Step s tr' s') (hstart : ∀ command, .start command host pid ∉ tr')
    (h : Dropped host pid s) : Dropped host pid s' ∨ pid ∉ s'.hostJobs host := by
  induction run with
  | nil => exact Or.inl h
  | @snoc tr' t u l run hstep ih =>
    rcases ih fun command hmem => hstart command (List.mem_append_left [l] hmem) with
      hdropped | habsent
    · exact (hdropped.step hstep).imp_right And.right
    · refine Or.inr ((Accounted.of_run (before.trans run)).absent hstep ?_ habsent)
      rintro command rfl
      exact hstart command (List.mem_append_right tr' List.mem_cons_self)

/-- After the visit of its host, a child that did not run before the visit occupies no slot. -/
theorem slot_freed {pre mid post : List (SubmitLabel Host Command)}
    (run : Lts.Run b.Step {} (pre ++ .visit host :: (mid ++ .visited host :: post)) s)
    (hpid : pid ∉ unfinishedPids pre) (hstart : ∀ command, .start command host pid ∉ mid ++ post) :
    pid ∉ s.hostJobs host := by
  obtain ⟨t, hpre, run⟩ : ∃ t, Lts.Run b.Step {} pre t ∧ _ := run.split
  obtain ⟨t₁, hvisit, run⟩ := run.cons_inv
  obtain ⟨t₂, hmid, run⟩ : ∃ t₂, Lts.Run b.Step t₁ mid t₂ ∧ _ := run.split
  obtain ⟨t₃, hvisited, hpost⟩ := run.cons_inv
  have before₁ : Lts.Run b.Step {} (pre ++ [.visit host]) t₁ := hpre.snoc hvisit
  have before₂ : Lts.Run b.Step {} (pre ++ [.visit host] ++ mid) t₂ := before₁.trans hmid
  have hdropped : Dropped host pid t₁ := by
    have hruns : ¬ t.process.table.Runs pid := fun h =>
      hpid (((Accounted.of_run hpre).tracked.runs pid).mp h)
    cases hvisit.move with
    | visit hsubmitting => exact ⟨hruns, _, _, _, _, rfl, List.not_mem_nil⟩
  have hmid' : Dropped host pid t₂ ∨ pid ∉ t₂.hostJobs host :=
    dropped_run before₁ hmid (fun command h => hstart command (List.mem_append_left post h))
      hdropped
  have habsent : pid ∉ t₃.hostJobs host := by
    rcases hmid' with hdropped | habsent
    · rcases hdropped.step hvisited with ⟨-, command, todo, stillRunning, hosts, hchecking, -⟩ | h
      · cases hvisited.move with
        | free | full => cases hchecking
      · exact h.2
    · exact (Accounted.of_run before₂).absent hvisited (fun command h => by cases h) habsent
  exact absent_run (before₂.snoc hvisited) hpost
    (fun command h => hstart command (List.mem_append_right mid h)) habsent

/-! ### Every job is started -/

/-- How many steps are left until the job is started, when no job runs. -/
def Submitter.weight (b : HostList Host) (s : Submitter Host Command) : Nat :=
  let fork := s.process.children.length + 1
  match s.submitting, s.process.phase with
  | some (_, .scanning []), _ => b.slotsPerHost + fork + 4
  | some (_, .scanning (_ :: _)), _ => b.slotsPerHost + fork + 2
  | some (_, .checking _ todo stillRunning _), _ =>
    todo.length + 1 + if stillRunning.length < b.slotsPerHost then fork
      else b.slotsPerHost + fork + 4
  | some (_, .blocked), _ => b.slotsPerHost + fork + 3
  | some (_, .forking _), .counting _ count => count.todo.length + 2 * count.alive.length + 1
  | _, _ => 0

theorem Count.child_of_not_runs {todo : List Pid} {table : Table} {count : Count}
    (h : ¬ table.Runs pid) : (count.child pid todo table).2.todo = todo ∧
      (count.child pid todo table).2.alive = count.alive := by
  obtain ⟨hfound, -⟩ := Table.waitpid_of_not_runs h
  unfold Count.child
  split
  · exact ⟨rfl, rfl⟩
  · rename_i heq
    rw [heq] at hfound
    exact absurd rfl hfound
  · exact ⟨rfl, rfl⟩

/-- A step towards the start of the job. -/
theorem weight_step (h : Accounted b tr s) (hhosts : b.hosts ≠ []) (hslots : 0 < b.slotsPerHost)
    (hnone : unfinished tr = []) (hsubmitting : s.submitting ≠ none) (hstep : b.Step s l s')
    (hl : l.startedCommand = none) :
    unfinished (tr ++ [l]) = [] ∧ s'.submitting ≠ none ∧ s'.weight b < s.weight b := by
  have hruns : ∀ pid, ¬ s.process.table.Runs pid := fun pid => h.tracked.not_runs hnone
  rw [unfinished_append_singleton, hnone]
  have hstage := h.stage
  cases hstep.move with
  | ends hprocess =>
    cases hprocess.move with
    | ends hpid => exact absurd hpid (hruns _)
  | submit hidle => exact absurd hidle hsubmitting
  | @visit command host hosts hsub =>
    refine ⟨rfl, by simp, ?_⟩
    have hroom := h.room host
    simp only [Submitter.weight, hsub, List.length_nil, hslots, if_true]
    omega
  | running hsub hpid => exact absurd hpid (hruns _)
  | completed hsub hpid =>
    refine ⟨rfl, by simp, ?_⟩
    simp only [Submitter.weight, hsub, List.length_cons]
    omega
  | free hsub hroom hprocess =>
    cases hprocess.move with
    | controlledFork hidle =>
    refine ⟨rfl, by simp, ?_⟩
    simp only [Submitter.weight, hsub, List.length_nil, if_pos hroom]
    omega
  | @full command host stillRunning hosts hsub hfull =>
    refine ⟨rfl, by simp, ?_⟩
    have hnot : ¬ stillRunning.length < b.slotsPerHost := Nat.not_lt.mpr hfull
    cases hosts <;> simp only [Submitter.weight, hsub, List.length_nil, if_neg hnot] <;> omega
  | noFreeHost hsub =>
    refine ⟨rfl, by simp, ?_⟩
    simp only [Submitter.weight, hsub]
    omega
  | noChild hsub hkeys =>
    refine ⟨rfl, by simp, ?_⟩
    obtain ⟨host, hosts, hcons⟩ := List.exists_cons_of_ne_nil hhosts
    simp only [Submitter.weight, hsub, hcons]
    omega
  | wait hsub hlookup =>
    refine ⟨rfl, by simp, ?_⟩
    obtain ⟨host, hosts, hcons⟩ := List.exists_cons_of_ne_nil hhosts
    simp only [Submitter.weight, hsub, hcons]
    omega
  | count hsub hprocess =>
    cases hprocess.move with
    | @waitpid args count pid todo hphase htodo =>
    refine ⟨rfl, hsubmitting, ?_⟩
    obtain ⟨htodo', halive⟩ : (count.child pid todo s.process.table).2.todo = todo ∧
        (count.child pid todo s.process.table).2.alive = count.alive :=
      Count.child_of_not_runs (hruns pid)
    simp only [Submitter.weight, hsub, hphase, htodo, htodo', halive, List.length_cons]
    omega
  | sleep hsub hprocess =>
    cases hprocess.move with
    | @sleep args count hphase htodo hlimit =>
    refine ⟨rfl, hsubmitting, ?_⟩
    rw [hsub] at hstage
    obtain ⟨⟨count', hcount⟩, -⟩ := hstage
    obtain ⟨rfl, rfl⟩ := Phase.counting.inj (hcount.symm.trans hphase)
    have hlimit' : 9999999 ≤ count'.alive.length := hlimit
    simp only [Submitter.weight, hsub, hphase, htodo, List.length_nil]
    omega
  | start hsub hprocess => cases hl

theorem weight_run (before : Lts.Run b.Step {} tr s) (hhosts : b.hosts ≠ [])
    (hslots : 0 < b.slotsPerHost) (hnone : unfinished tr = []) (hsubmitting : s.submitting ≠ none)
    {tr' : List (SubmitLabel Host Command)} (run : Lts.Run b.Step s tr' s')
    (hstarted : started tr' = []) : unfinished (tr ++ tr') = [] ∧ s'.submitting ≠ none ∧
      tr'.length + s'.weight b ≤ s.weight b := by
  induction run with
  | nil => exact ⟨by rwa [List.append_nil], hsubmitting, by simp⟩
  | @snoc tr' t u l run hstep ih =>
    rw [started, List.filterMap_append, List.append_eq_nil_iff] at hstarted
    obtain ⟨hunfinished, hsub, hweight⟩ := ih hstarted.1
    have hl : l.startedCommand = none := by
      cases hl : l.startedCommand with
      | none => rfl
      | some command => simp [hl] at hstarted
    obtain ⟨hunfinished', hsub', hweight'⟩ := weight_step (.of_run (before.trans run)) hhosts hslots
      hunfinished hsub hstep hl
    rw [List.append_assoc] at hunfinished'
    refine ⟨hunfinished', hsub', ?_⟩
    rw [List.length_append, List.length_singleton]
    omega

/-- While no job runs, `submit` can go on. -/
theorem Accounted.enabled (h : Accounted b tr s) (hnone : unfinished tr = [])
    (hsubmitting : s.submitting ≠ none) : ∃ l, (b.step s l).isSome := by
  have hruns : ∀ pid, ¬ s.process.table.Runs pid := fun pid => h.tracked.not_runs hnone
  have hstage := h.stage
  cases hsub : s.submitting with
  | none => exact absurd hsub hsubmitting
  | some submitting =>
    rw [hsub] at hstage
    obtain ⟨command, stage⟩ := submitting
    cases stage with
    | scanning hosts =>
      cases hosts with
      | nil => exact ⟨.noFreeHost, by simp only [HostList.step, hsub]; rfl⟩
      | cons host hosts =>
        exact ⟨.visit host, by simp only [HostList.step, hsub]; rfl⟩
    | checking host todo stillRunning hosts =>
      cases todo with
      | nil =>
        by_cases hroom : stillRunning.length < b.slotsPerHost
        · refine ⟨.visited host, ?_⟩
          simp only [HostList.step, hsub, if_true, HostList.visited, if_pos hroom,
            Process.step, hstage.1, Option.map_some]
          rfl
        · refine ⟨.visited host, ?_⟩
          simp only [HostList.step, hsub, if_true, HostList.visited, if_neg hroom]
          rfl
      | cons pid todo => exact ⟨.waitpid, by simp only [HostList.step, hsub]; rfl⟩
    | blocked =>
      cases hkeys : s.process.table.keys with
      | nil => exact ⟨.wait none, by simp only [HostList.step, hsub, hkeys]; rfl⟩
      | cons pid pids =>
        have hmem : pid ∈ s.process.table := AList.mem_keys.mpr (hkeys ▸ List.mem_cons_self)
        obtain ⟨found, hfound⟩ := Option.isSome_iff_exists.mp (AList.lookup_isSome.mpr hmem)
        cases found with
        | none => exact absurd hfound (hruns pid)
        | some status =>
          exact ⟨.wait (some pid), by simp only [HostList.step, hsub, hfound]; rfl⟩
    | forking host =>
      obtain ⟨⟨count, hphase⟩, -⟩ := hstage
      cases htodo : count.todo with
      | cons pid todo =>
        refine ⟨.count, ?_⟩
        simp only [HostList.step, Submitter.forkStep, hsub, Process.step, hphase,
          htodo, Option.map_some]
        rfl
      | nil =>
        by_cases hlimit : count.alive.length < sshFork.limit
        · -- the process ids in use are finitely many
          obtain ⟨pid, hpid⟩ := Infinite.exists_notMem_finset (0 :: s.process.table.keys).toFinset
          rw [List.mem_toFinset, List.mem_cons, not_or] at hpid
          have hfork : count.todo = [] ∧ count.alive.length < sshFork.limit ∧ pid ≠ 0 ∧
              pid ∉ s.process.table :=
            ⟨htodo, hlimit, hpid.1, fun h => hpid.2 (AList.mem_keys.mp h)⟩
          refine ⟨.start command host pid, ?_⟩
          simp only [HostList.step, hsub, and_self, if_true, Process.step, hphase,
            if_pos hfork, Option.map_some]
          rfl
        · refine ⟨.sleep, ?_⟩
          simp only [HostList.step, Submitter.forkStep, hsub, Process.step, hphase,
            if_pos (And.intro htodo hlimit), Option.map_some]
          rfl

/-- What `submit` promises in every run. -/
structure Scheduled (b : HostList Host) (tr : List (SubmitLabel Host Command))
    (s : Submitter Host Command) : Prop where
  once : started tr ++ s.pending = submitted tr
  room : ∀ pre post command host pid, tr = pre ++ .start command host pid :: post →
    host ∈ b.hosts ∧ load pre host < b.slotsPerHost
  bounded : ∀ host, load tr host ≤ b.slotsPerHost
  freed : ∀ pre mid post host pid, tr = pre ++ .visit host :: (mid ++ .visited host :: post) →
    pid ∉ unfinishedPids pre → (∀ command, .start command host pid ∉ mid ++ post) →
    pid ∉ s.hostJobs host
  progress : unfinished tr = [] → s.submitting ≠ none → ∀ tr' s', Lts.Run b.Step s tr' s' →
    started tr' = [] → tr'.length ≤ s.weight b ∧ ∃ l, (b.step s' l).isSome

theorem Accounted.start_room {command : Command} (h : Accounted b tr s)
    (hstep : b.Step s (.start command host pid) s') :
    host ∈ b.hosts ∧ load tr host < b.slotsPerHost := by
  have hstage := h.stage
  have hload := h.load_le host
  cases hstep.move with
  | start hsubmitting hprocess =>
  rw [hsubmitting] at hstage
  rw [Submitter.slots, hsubmitting] at hload
  exact ⟨hstage.2.1, hload.trans_lt hstage.2.2⟩

theorem submit_scheduled (hhosts : b.hosts ≠ []) (hslots : 0 < b.slotsPerHost)
    (run : Lts.Run b.Step {} tr s) : Scheduled b tr s where
  once := run.invariant (fun tr s => started tr ++ s.pending = submitted tr) rfl
    fun tr t l u => started_step
  room pre post command host pid htr := by
    subst htr
    obtain ⟨t, hpre, run⟩ := run.split
    obtain ⟨t', hstep, -⟩ := run.cons_inv
    exact (Accounted.of_run hpre).start_room hstep
  bounded host := by
    have haccounted := Accounted.of_run run
    exact (haccounted.load_le host).trans ((haccounted.kept host).length_le.trans
      (haccounted.room host))
  freed pre mid post host pid htr hpid hstart := by
    subst htr
    exact slot_freed run hpid hstart
  progress hnone hsubmitting tr' s' run' hstarted := by
    obtain ⟨hnone', hsubmitting', hweight⟩ :=
      weight_run run hhosts hslots hnone hsubmitting run' hstarted
    exact ⟨by omega, (Accounted.of_run (run.trans run')).enabled hnone' hsubmitting'⟩

/-- One job on the only host. -/
theorem submit_scheduled_oneJob : Scheduled ⟨["ape"], 1⟩
    [.submit "gzip", .visit "ape", .visited "ape", .start "gzip" "ape" 7]
    { hostJobs := Function.update (Function.update (fun _ => []) "ape" []) "ape" [7]
      process := { waitForChildren := true, children := [7], table := Table.start 7 ∅ } } :=
  submit_scheduled (by decide) (by decide)
    (.of_foldlM (f := HostList.step ⟨["ape"], 1⟩) (fun _ _ _ h => h) rfl)

theorem no_start_of_no_hosts (hhosts : b.hosts = []) (run : Lts.Run b.Step {} tr s) :
    started tr = [] := by
  rw [started, List.filterMap_eq_nil_iff]
  intro l hl
  obtain ⟨pre, post, t, t', rfl, hpre, hstep, -⟩ := run.exists_step hl
  cases l with
  | start command host pid =>
    have hroom := (Accounted.of_run hpre).start_room hstep
    rw [hhosts] at hroom
    cases hroom.1
  | _ => rfl

/-- Without a host no job is ever started. And a job that has been reaped by `count_children` while
its host was not visited occupies a slot after the next visit when a new job gets its pid. -/
theorem not_submit_scheduled :
    (∃ s, Lts.Run (HostList.Step ⟨([] : List String), 1⟩) {} [.submit "gzip"] s ∧
      ∀ tr s', Lts.Run (HostList.Step ⟨([] : List String), 1⟩) s tr s' → started tr = []) ∧
    ¬ ∀ (b : HostList String) (pre₁ pre₂ pre₃ mid post : List (SubmitLabel String String))
      (s : Submitter String String) (command host : String) (pid : Pid) (status : Status),
      b.hosts ≠ [] → b.hosts.Nodup → 0 < b.slotsPerHost →
      Lts.Run b.Step {} (pre₁ ++ .start command host pid :: (pre₂ ++ .ends pid status :: (pre₃ ++
        .visit host :: (mid ++ .visited host :: post)))) s →
      (∀ command, .start command host pid ∉ pre₃ ++ mid ++ post) → pid ∉ s.hostJobs host := by
  refine ⟨⟨{ submitting := some ("gzip", .scanning []) }, .single rfl, ?_⟩, ?_⟩
  · intro tr s' run
    have hsubmit : Lts.Run (HostList.Step ⟨([] : List String), 1⟩) {} [.submit "gzip"]
        { submitting := some ("gzip", .scanning []) } := .single rfl
    have hnone := no_start_of_no_hosts rfl (hsubmit.trans run)
    exact hnone
  · intro h
    refine h ⟨["ape", "bee"], 1⟩ [.submit "gzip", .visit "ape", .visited "ape"]
      [.submit "mcf", .visit "ape", .waitpid, .visited "ape", .visit "bee", .visited "bee"]
      [.count, .start "mcf" "bee" 7, .submit "swim"] [.waitpid] [] _ "gzip" "ape" 7 (.exited 0)
      (by decide) (by decide) (by decide) (.of_foldlM (f := HostList.step ⟨["ape", "bee"], 1⟩)
        (fun _ _ _ h => h) rfl) ?_ ?_
    · intro command hmem
      simp at hmem
    · decide

end Awb.Batch
