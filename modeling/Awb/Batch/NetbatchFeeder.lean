import Awb.Builder.Paths
import Mathlib.Tactic

/-! `Asim::Batch::NetbatchFeeder`: submitted jobs are collected in tasks, some of which depend on
others, and the tasks are written to a file. -/

namespace Awb.Batch.Feeder

/-! ### The module -/

structure Job where
  command : Text
  batchLog : Text
  deriving DecidableEq

/-- The hash of a task. A `lastBuildTask` that is not positive stands for none. -/
structure Task where
  build : Bool
  last : Bool
  taskNo : ℕ
  lastBuildTask : ℤ
  pool : Text
  queue : Text
  batchClass : Text
  jobList : List Job

structure Settings where
  pool : Text
  queue : Text
  batchClass : Text
  poolBuild : Text
  queueBuild : Text
  classBuild : Text

structure State where
  taskNo : ℕ
  lastBuildTask : ℤ
  taskList : List Task
  curTask : Option Task

/-- The arguments of `submit`, without the log of the submission. -/
structure Submission where
  command : Text
  batchLog : Text
  build : Bool
  depTask : Option ℕ

def new : State := ⟨0, -1, [], none⟩

/-- `||`, where an empty text and a zero are as good as none. -/
def orDefault (default text : Text) : Text :=
  if text = [] ∨ text = ['0'] then default else text

def devNull : Text := "/dev/null".toList

def chomp (command : Text) : Text :=
  if command.getLast? = some '\n' then command.dropLast else command

/-- The number of a task that is given, or -1. -/
def Submission.depNo (s : Submission) : ℤ :=
  match s.depTask with
  | some n => if n = 0 then -1 else n
  | none => -1

section
variable (settings : Settings)

def beginTask (build last : Bool) (depTask : ℤ) (st : State) : State :=
  let task : Task :=
    { build, last
      taskNo := st.taskNo + 1
      lastBuildTask := if 0 < depTask then depTask else st.lastBuildTask
      pool := if build then settings.poolBuild else settings.pool
      queue := if build then settings.queueBuild else settings.queue
      batchClass := if build then settings.classBuild else settings.batchClass
      jobList := [] }
  { st with taskNo := st.taskNo + 1, curTask := some task }

def addJob (command batchLog : Text) (st : State) : State :=
  { st with curTask := st.curTask.map fun task =>
      { task with jobList := task.jobList ++ [⟨command, orDefault devNull batchLog⟩] } }

def endTask (st : State) : State :=
  { st with taskList := st.taskList ++ st.curTask.toList, curTask := none }

def submit (s : Submission) (st : State) : State :=
  let st := match st.curTask with
    | none => beginTask settings s.build false s.depNo st
    | some _ => if s.build then beginTask settings true false s.depNo (endTask st) else st
  let st := addJob (chomp s.command) (orDefault devNull s.batchLog) st
  if s.build then { endTask st with lastBuildTask := st.taskNo }
  else { st with lastBuildTask := -1 }

/-- `submit_depend` returns the number of the task. -/
def submitDepend (s : Submission) (st : State) : State × ℕ :=
  let st := submit settings s st
  (st, st.taskNo)

/-- The tasks when the submissions are complete. -/
def submissionComplete (resdir : Text) (command : Option Text) (st : State) : List Task :=
  let st := if st.curTask.isSome then endTask st else st
  match command with
  | none => st.taskList
  | some command =>
    (endTask (addJob command (resdir ++ "/completion_command.log".toList)
      (beginTask settings false true (-1) st))).taskList

/-- All submissions, one after the other. -/
def submitAll (subs : List Submission) : State :=
  subs.foldl (fun st s => submit settings s st) new

end

/-- The tasks that a task is written to depend on. -/
def Task.dependsOn (task : Task) : List ℕ :=
  if task.last then List.range' 1 (task.taskNo - 1)
  else if 0 < task.lastBuildTask then [task.lastBuildTask.toNat] else []

def number (n : ℕ) : Text := Nat.toDigits 10 n

/-- The lines for a task. -/
def Task.lines (task : Task) : List Text :=
  ["Task TSK".toList ++ number task.taskNo, ['\x7b'], "  Queue ".toList ++ task.pool,
    "  ".toList ++ ['\x7b'], "    Qslot ".toList ++ task.queue, "  ".toList ++ ['\x7d']] ++
  task.dependsOn.map (fun n => "  DependsOn TSK".toList ++ number n ++ "[OnSuccess]".toList) ++
  ["  Jobs".toList, "  ".toList ++ ['\x7b']] ++
  task.jobList.map (fun job => "    nbjob run --class ".toList ++ task.batchClass ++
    " --log-file ".toList ++ job.batchLog ++ ' ' :: job.command) ++
  ["  ".toList ++ ['\x7d'], ['\x7d']]

def emitTaskfile (tasks : List Task) : List Text := tasks.flatMap Task.lines

/-! ### What the task file should say -/

namespace Submission

def job (s : Submission) : Job := ⟨chomp s.command, orDefault devNull s.batchLog⟩

/-- The task that is given. No task has the number 0. -/
def given (s : Submission) : Option ℕ := s.depTask.filter (· ≠ 0)

/-- The task that a job depends on, where `lastBuild` is that of the last build before it. -/
def needs (s : Submission) (lastBuild : Option ℕ) : Option ℕ :=
  s.given.or (if s.build then none else lastBuild)

end Submission

/-- A job, and what the file says of the task that it is in. -/
structure Placement where
  taskNo : ℕ
  dependsOn : List ℕ
  job : Job

def Task.placements (task : Task) : List Placement :=
  task.jobList.map fun job => ⟨task.taskNo, task.dependsOn, job⟩

def placements (tasks : List Task) : List Placement := tasks.flatMap Task.placements

def Rightly (lastBuild : Option ℕ) (s : Submission) (p : Placement) : Prop :=
  match s.given with
  | some n => n ∈ p.dependsOn
  | none => p.dependsOn = if s.build then [] else lastBuild.toList

/-- Each submission has one placement, in the order of the submissions. -/
def AllRightly : Option ℕ → List Submission → List Placement → Prop
  | _, [], [] => True
  | lastBuild, s :: subs, p :: ps => (p.job = s.job ∧ Rightly lastBuild s p) ∧
      AllRightly (if s.build then some p.taskNo else lastBuild) subs ps
  | _, _, _ => False

/-- The tasks of the submissions, and a last one for a completion command. -/
structure Fed (subs : List Submission) (completion : Option Job) (tasks : List Task) : Prop where
  numbers : (tasks.map Task.taskNo).Nodup
  jobs : ∃ own last, tasks = own ++ last ∧ AllRightly none subs (placements own) ∧
    match completion with
    | none => last = []
    | some job => ∃ task, last = [task] ∧ task.jobList = [job] ∧
        ∀ n, n ∈ task.dependsOn ↔ n ∈ own.map Task.taskNo

/-- A job that is no build is put into the task of such a job right before it. -/
def Joins (prev : Option Submission) (s : Submission) : Prop :=
  s.build = false ∧ ∃ p ∈ prev, p.build = false

instance (prev : Option Submission) (s : Submission) : Decidable (Joins prev s) :=
  match prev with
  | none => isFalse fun h => nomatch h.2
  | some p => decidable_of_iff (s.build = false ∧ p.build = false) (by simp [Joins])

/-- A build right behind another one names a task, and a job right behind another one, where both
are no builds, needs the same task. -/
def Settled : Option Submission → ℕ → Option ℕ → List Submission → Prop
  | _, _, _, [] => True
  | prev, n, lastBuild, s :: subs =>
    (∀ p ∈ prev, p.build = s.build →
      if s.build then s.given ≠ none else s.needs lastBuild = p.needs lastBuild) ∧
    let n := if Joins prev s then n else n + 1
    Settled (some s) n (if s.build then some n else lastBuild) subs

/-! ### Where the jobs go -/

/-- What a task that is begun depends on. -/
def newDepends (prev : Option Submission) (n : ℕ) (s : Submission) : List ℕ :=
  match s.given with
  | some k => [k]
  | none => if prev.any (·.build) then [n] else []

/-- The placements of jobs, where `n` tasks have been begun and the last of them depends on `d`. -/
def place : Option Submission → ℕ → List ℕ → List Submission → List Placement
  | _, _, _, [] => []
  | prev, n, d, s :: subs =>
    if Joins prev s then ⟨n, d, s.job⟩ :: place (some s) n d subs
    else
      ⟨n + 1, newDepends prev n s, s.job⟩ ::
        place (some s) (n + 1) (newDepends prev n s) subs

/-- The tasks, as if they were complete. -/
def State.finish (st : State) : List Task := st.taskList ++ st.curTask.toList

/-- What a state remembers of the jobs. -/
structure Tracks (prev : Option Submission) (n : ℕ) (d : List ℕ) (st : State) : Prop where
  taskNo : st.taskNo = n
  numbers : st.finish.map Task.taskNo = List.range' 1 n
  lastBuild : st.lastBuildTask = if prev.any (·.build) then (n : ℤ) else -1
  closed : (∀ p ∈ prev, p.build = true) → st.curTask = none
  opened : ∀ p ∈ prev, p.build = false → ∃ task, st.curTask = some task ∧ task.last = false ∧
    task.taskNo = n ∧ task.dependsOn = d
  positive : prev ≠ none → 0 < n

variable {settings : Settings} {prev : Option Submission} {n : ℕ} {d : List ℕ} {st : State}
  {s : Submission} {subs : List Submission} {lastBuild : Option ℕ}

theorem tracks_new : Tracks none 0 [] new where
  taskNo := rfl
  numbers := rfl
  lastBuild := rfl
  closed _ := rfl
  opened _ hp := nomatch hp
  positive h := absurd rfl h

theorem depNo_eq (s : Submission) : s.depNo = match s.given with
    | some k => (k : ℤ)
    | none => -1 := by
  rw [Submission.depNo, Submission.given]
  cases s.depTask with
  | none => rfl
  | some k => by_cases hk : k = 0 <;> simp [Option.filter, hk]

theorem given_pos {k : ℕ} (hk : s.given = some k) : 0 < k := by
  rw [Submission.given, Option.filter_eq_some_iff] at hk
  exact Nat.pos_of_ne_zero (by simpa using hk.2)

theorem orDefault_idem (default text : Text) (hdefault : default ≠ [] ∧ default ≠ ['0']) :
    orDefault default (orDefault default text) = orDefault default text := by
  rw [orDefault, orDefault]
  split
  · rw [if_neg (by simpa using hdefault)]
  · rfl

theorem placements_append (tasks tasks' : List Task) :
    placements (tasks ++ tasks') = placements tasks ++ placements tasks' := List.flatMap_append

theorem placements_singleton (task : Task) : placements [task] = task.placements :=
  List.flatMap_singleton ..

/-- The job of a submission, as it is added to a task. -/
theorem job_eq (s : Submission) :
    (⟨chomp s.command, orDefault devNull (orDefault devNull s.batchLog)⟩ : Job) = s.job := by
  rw [orDefault_idem _ _ (by decide)]
  rfl

theorem submit_joins (settings : Settings) (h : Tracks prev n d st) (hjoins : Joins prev s) :
    Tracks (some s) n d (submit settings s st) ∧
      placements (submit settings s st).finish = placements st.finish ++ [⟨n, d, s.job⟩] := by
  obtain ⟨hbuild, p, hp, hpbuild⟩ := hjoins
  obtain ⟨task, hcur, hlast, htaskNo, hdepends⟩ := h.opened p hp hpbuild
  have hsubmit : submit settings s st = { st with
      curTask := some { task with jobList := task.jobList ++ [s.job] }, lastBuildTask := -1 } := by
    rw [submit, hcur]
    simp only [hbuild, Bool.false_eq_true, if_false, addJob, hcur, Option.map_some, job_eq]
  have hnumbers := h.numbers
  rw [hsubmit]
  refine ⟨⟨h.taskNo, ?_, ?_, ?_, ?_, fun _ => h.positive (by rw [hp]; simp)⟩, ?_⟩
  · rw [← hnumbers]
    simp [State.finish, hcur]
  · simp [hbuild]
  · intro hall
    have := hall s rfl
    rw [hbuild] at this
    cases this
  · rintro _ ⟨⟩ _
    refine ⟨_, rfl, hlast, htaskNo, ?_⟩
    rw [← hdepends]
    rfl
  · have hplaced : Task.placements { task with jobList := task.jobList ++ [s.job] } =
        task.placements ++ [⟨n, d, s.job⟩] := by
      rw [Task.placements, List.map_append, ← htaskNo, ← hdepends]
      rfl
    simp only [State.finish, hcur, Option.toList_some, placements_append, placements_singleton,
      hplaced, List.append_assoc]

theorem submit_begins (settings : Settings) (h : Tracks prev n d st) (hjoins : ¬Joins prev s) :
    Tracks (some s) (n + 1) (newDepends prev n s) (submit settings s st) ∧
      placements (submit settings s st).finish =
        placements st.finish ++ [⟨n + 1, newDepends prev n s, s.job⟩] := by
  -- the task of the job, once it has the job
  obtain ⟨task, hjobs, htaskNo, hlast, hdep, hfinish, hcur, htaskNo', hlastBuild⟩ : ∃ task : Task,
      task.jobList = [s.job] ∧ task.taskNo = n + 1 ∧ task.last = false ∧
      task.lastBuildTask = (if 0 < s.depNo then s.depNo else st.lastBuildTask) ∧
      (submit settings s st).finish = st.finish ++ [task] ∧
      (submit settings s st).curTask = (if s.build then none else some task) ∧
      (submit settings s st).taskNo = n + 1 ∧
      (submit settings s st).lastBuildTask = if s.build then (n + 1 : ℤ) else -1 := by
    have hn := h.taskNo
    cases hcur : st.curTask with
    | none =>
      rw [submit, hcur]
      cases hbuild : s.build <;>
        simp [beginTask, addJob, endTask, State.finish, hcur, hn, job_eq]
    | some open' =>
      have hbuild : s.build = true := by
        by_contra hno
        have hall : ∀ p ∈ prev, p.build = true := by
          intro p hp
          by_contra hp'
          exact hjoins ⟨by simpa using hno, p, hp, by simpa using hp'⟩
        rw [h.closed hall] at hcur
        cases hcur
      rw [submit, hcur]
      simp [hbuild, beginTask, addJob, endTask, State.finish, hcur, hn, job_eq]
  have hdepends : task.dependsOn = newDepends prev n s := by
    rw [Task.dependsOn, hlast, hdep, depNo_eq, newDepends, h.lastBuild]
    match hgiven : s.given with
    | some k =>
      have hk := given_pos hgiven
      simp [hk]
    | none =>
      cases hprev : prev.any (·.build) with
      | false => simp
      | true =>
        have hn := h.positive (by rintro rfl; cases hprev)
        simp [hn]
  refine ⟨⟨htaskNo', ?_, ?_, ?_, ?_, fun _ => Nat.succ_pos n⟩, ?_⟩
  · rw [hfinish, List.map_append, h.numbers, List.range'_concat]
    simp [htaskNo, Nat.add_comm]
  · rw [hlastBuild]
    simp
  · intro hall
    rw [hcur, if_pos (hall s rfl)]
  · rintro _ ⟨⟩ hbuild
    exact ⟨task, by rw [hcur, hbuild]; rfl, hlast, htaskNo, hdepends⟩
  · rw [hfinish, placements_append]
    simp [placements, Task.placements, hjobs, htaskNo, hdepends]

theorem foldl_submit (settings : Settings) (subs : List Submission) (h : Tracks prev n d st) :
    ∃ prev' n' d', Tracks prev' n' d' (subs.foldl (fun st s => submit settings s st) st) ∧
      placements (subs.foldl (fun st s => submit settings s st) st).finish =
        placements st.finish ++ place prev n d subs := by
  induction subs generalizing prev n d st with
  | nil => exact ⟨prev, n, d, h, (List.append_nil _).symm⟩
  | cons s subs ih =>
    rw [List.foldl_cons, place]
    by_cases hjoins : Joins prev s
    · obtain ⟨htracks, hplaced⟩ := submit_joins settings h hjoins
      obtain ⟨prev', n', d', htracks', hplaced'⟩ := ih htracks
      refine ⟨prev', n', d', htracks', ?_⟩
      rw [hplaced', hplaced, if_pos hjoins, List.append_assoc, List.singleton_append]
    · obtain ⟨htracks, hplaced⟩ := submit_begins settings h hjoins
      obtain ⟨prev', n', d', htracks', hplaced'⟩ := ih htracks
      refine ⟨prev', n', d', htracks', ?_⟩
      rw [hplaced', hplaced, if_neg hjoins, List.append_assoc, List.singleton_append]

/-- What is known of the last build, and of the dependence of a task that is open. -/
structure Consistent (prev : Option Submission) (n : ℕ) (d : List ℕ) (lastBuild : Option ℕ) :
    Prop where
  first : prev = none → lastBuild = none
  built : ∀ p ∈ prev, p.build = true → lastBuild = some n
  opened : ∀ p ∈ prev, p.build = false → d = (p.needs lastBuild).toList

/-- A task does as well as what it should depend on. -/
theorem rightly_iff {p : Placement} (hd : ∃ r : Option ℕ, p.dependsOn = r.toList) :
    Rightly lastBuild s p ↔ p.dependsOn = (s.needs lastBuild).toList := by
  obtain ⟨r, hr⟩ := hd
  rw [Rightly, Submission.needs, hr]
  match s.given with
  | some k =>
    cases r with
    | none => simp
    | some m =>
      simp only [Option.toList_some, List.mem_singleton, Option.some_or, List.cons.injEq, and_true]
      exact eq_comm
  | none => cases s.build <;> simp

theorem toList_injective {α : Type*} {a b : Option α} (h : a.toList = b.toList) : a = b := by
  cases a <;> cases b <;> simp_all

theorem rightly_joins (h : Consistent prev n d lastBuild) (hjoins : Joins prev s) :
    Rightly lastBuild s ⟨n, d, s.job⟩ ↔ ∀ p ∈ prev, p.build = s.build →
      if s.build then s.given ≠ none else s.needs lastBuild = p.needs lastBuild := by
  obtain ⟨hbuild, p, hp, hpbuild⟩ := hjoins
  have hd := h.opened p hp hpbuild
  rw [rightly_iff ⟨_, hd⟩]
  obtain rfl : prev = some p := hp
  simp only [Option.mem_some_iff, forall_eq', hbuild, hpbuild, forall_const, Bool.false_eq_true,
    if_false, hd]
  exact ⟨fun h => (toList_injective h).symm, fun h => by rw [h]⟩

theorem rightly_begins (h : Consistent prev n d lastBuild) (hjoins : ¬Joins prev s) :
    Rightly lastBuild s ⟨n + 1, newDepends prev n s, s.job⟩ ↔ ∀ p ∈ prev, p.build = s.build →
      if s.build then s.given ≠ none else s.needs lastBuild = p.needs lastBuild := by
  match hprev : prev with
  | none =>
    have hlast := h.first rfl
    rw [Rightly, newDepends]
    cases s.given <;> simp [hlast]
  | some p =>
    cases hp : p.build with
    | true =>
      have hlast := h.built p rfl hp
      rw [Rightly, newDepends]
      cases s.given <;> cases hs : s.build <;> simp [hlast, hp]
    | false =>
      have hs : s.build = true := by
        by_contra hno
        exact hjoins ⟨by simpa using hno, p, rfl, hp⟩
      rw [Rightly, newDepends]
      cases s.given <;> simp [hs, hp]

/-- A right placement of a job leaves the state consistent for the next one. -/
theorem Consistent.next (hd : ∃ r : Option ℕ, d = r.toList)
    (hright : Rightly lastBuild s ⟨n, d, s.job⟩) :
    Consistent (some s) n d (if s.build then some n else lastBuild) where
  first h := nomatch h
  built := by
    rintro _ ⟨⟩ hbuild
    rw [if_pos hbuild]
  opened := by
    rintro _ ⟨⟩ hbuild
    rw [hbuild]
    exact (rightly_iff hd).mp hright

theorem exists_newDepends (prev : Option Submission) (n : ℕ) (s : Submission) :
    ∃ r : Option ℕ, newDepends prev n s = r.toList := by
  rw [newDepends]
  cases s.given with
  | some k => exact ⟨some k, rfl⟩
  | none =>
    cases prev.any (·.build) with
    | false => exact ⟨none, rfl⟩
    | true => exact ⟨some n, rfl⟩

/-- The placements are right for all jobs if the condition holds of all. -/
theorem allRightly_place (h : Consistent prev n d lastBuild) :
    AllRightly lastBuild subs (place prev n d subs) ↔ Settled prev n lastBuild subs := by
  induction subs generalizing prev n d lastBuild with
  | nil => exact Iff.rfl
  | cons s subs ih =>
    rw [place, Settled]
    by_cases hjoins : Joins prev s
    · have hright := rightly_joins h hjoins
      rw [if_pos hjoins, if_pos hjoins, AllRightly, ← hright]
      obtain ⟨-, p, hp, hpbuild⟩ := hjoins
      simp only [true_and]
      exact and_congr_right fun hright => ih (.next ⟨_, h.opened p hp hpbuild⟩ hright)
    · rw [if_neg hjoins, if_neg hjoins, AllRightly, ← rightly_begins h hjoins]
      simp only [true_and]
      exact and_congr_right fun hright => ih (.next (exists_newDepends prev n s) hright)

/-! ### The whole file -/

theorem numbers_submitAll (settings : Settings) (subs : List Submission) :
    ∃ n, (submitAll settings subs).taskNo = n ∧
      (submitAll settings subs).finish.map Task.taskNo = List.range' 1 n ∧
      placements (submitAll settings subs).finish = place none 0 [] subs := by
  obtain ⟨prev, n, d, htracks, hplaced⟩ := foldl_submit settings subs tracks_new
  exact ⟨n, htracks.taskNo, htracks.numbers, hplaced⟩

theorem tasks_eq (st : State) (resdir : Text) (command : Option Text) :
    submissionComplete settings resdir command st = st.finish ++ match command with
      | none => []
      | some command => [{
          build := false
          last := true
          taskNo := st.taskNo + 1
          lastBuildTask := st.lastBuildTask
          pool := settings.pool
          queue := settings.queue
          batchClass := settings.batchClass
          jobList := [⟨command,
            orDefault devNull (resdir ++ "/completion_command.log".toList)⟩] }] := by
  cases hcur : st.curTask <;> cases command <;>
    simp [submissionComplete, endTask, addJob, beginTask, State.finish, hcur]

theorem consistent_new : Consistent none 0 [] none where
  first _ := rfl
  built _ hp := nomatch hp
  opened _ hp := nomatch hp

/-- The task file of all submissions and a completion command. -/
def taskfile (settings : Settings) (subs : List Submission) (resdir : Text)
    (command : Option Text) : List Task :=
  submissionComplete settings resdir command (submitAll settings subs)

def completionJob (resdir command : Text) : Job :=
  ⟨command, orDefault devNull (resdir ++ "/completion_command.log".toList)⟩

theorem Fed.settled {resdir : Text} (command : Option Text)
    (h : Fed subs (command.map (completionJob resdir)) (taskfile settings subs resdir command)) :
    Settled none 0 none subs := by
  obtain ⟨n, -, -, hplaced⟩ := numbers_submitAll settings subs
  rw [← allRightly_place consistent_new, ← hplaced]
  obtain ⟨-, own, last, heq, hall, hlast⟩ := h
  rw [taskfile, tasks_eq] at heq
  have hown : (submitAll settings subs).finish = own := by
    cases command with
    | none =>
      simp only [Option.map_none] at hlast
      rw [hlast, List.append_nil, List.append_nil] at heq
      exact heq
    | some command =>
      obtain ⟨task, rfl, -⟩ := hlast
      exact (List.append_inj' heq rfl).1
  rwa [hown]

end Awb.Batch.Feeder
