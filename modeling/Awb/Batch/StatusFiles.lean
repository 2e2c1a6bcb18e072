import Awb.Batch.NetbatchFeeder
import Awb.Lib.Interrupts

/-! A local job of `awb-batch`: the files in the results directory that say what has become of its
benchmark. The results directory exists, since the `SUBMITTED` file is in it. Signals wait until a
command has ended; `mv` and `rm` do what they are told. -/

namespace Awb.Batch.StatusFiles

open Interrupts (Script Handler Config Reaches Always Interruptible Keeps always_test)

/-- The files of the benchmark, the flags of the script, and what has happened to the job. -/
structure Job where
  submitted : Bool
  running : Bool
  error : Bool
  stats : Bool
  rundir : Bool
  /-- The `ERROR` file can be opened. -/
  writable : Bool
  /-- `$bm` is set. -/
  named : Bool
  runflset : Bool
  rmrundir : Bool
  failed : Bool
  /-- It was interrupted before `$runflset` was set. -/
  early : Bool
  died : Bool
deriving DecidableEq

structure Settings where
  compress : Text
  keeprunoutput : Bool
  keepstatsfile : Bool

namespace Job

def nameBenchmark (s : Job) : Job := { s with named := true }

def rmError (s : Job) : Job := { s with error := false }

def mvSubmitted (s : Job) : Job := { s with submitted := false, running := true }

def setRunflset (s : Job) : Job := { s with runflset := true }

def copyStats (s : Job) : Job := { s with stats := true }

/-- The file of another benchmark if `$bm` is not set. -/
def writeError (s : Job) : Job := { s with error := s.error || s.named }

def rmRunning (s : Job) : Job := { s with running := false }

def rmRundir (s : Job) : Job := { s with rundir := false }

def fail (s : Job) : Job := { s with failed := true }

def die (s : Job) : Job := { s with failed := true, died := true }

def kill (s : Job) : Job := { s with rmrundir := true, early := !s.runflset }

end Job

/-! ### The script -/

/-- A command that leaves these files alone, whatever comes of it. -/
def quiet (next : Script Job) : Script Job := .act id next

def die : Script Job := .act Job.die .exit

def cleanup : Script Job :=
  let unlocked := .test Job.rmrundir (.act Job.rmRundir .exit) .exit
  .test Job.runflset (.act Job.rmRunning (quiet unlocked)) unlocked

def runerror : Script Job := .test Job.writable (.act Job.writeError (quiet cleanup)) die

def killCleanup : Handler Job where
  entry := Job.kill
  body := runerror

/-- `rsync_results`, which has nothing to do, and `log_run`. -/
def finish : Script Job := quiet (quiet cleanup)

/-- `open(...) || die`. -/
def setupRerunScript (next : Script Job) : Script Job := .call id (quiet next) Job.die .exit

def failedRun : Script Job :=
  setupRerunScript (.test Job.writable (.act Job.writeError (quiet finish)) die)

/-- The file in the results directory, and the others, if there are any. -/
def compressStats : Script Job :=
  .call id (.call id (.call id (quiet finish) Job.fail runerror) id (quiet finish)) Job.fail
    runerror

/-- Stated once, so that a look-up in a list of texts rests on it by name. -/
theorem lawfulBEq_text : LawfulBEq Text := inferInstance

attribute [local instance] lawfulBEq_text

def copied (settings : Settings) : Script Job :=
  if Feeder.chomp settings.compress ∈ ["none".toList, "no".toList] then quiet finish
  else compressStats

def results (settings : Settings) : Script Job :=
  let copy := .call Job.copyStats
    (if settings.keepstatsfile then copied settings else quiet (copied settings)) Job.fail runerror
  if settings.keeprunoutput then quiet copy else copy

def run (settings : Settings) : Script Job :=
  .call id (quiet (setupRerunScript (.call id (results settings) Job.fail failedRun))) Job.fail
    runerror

/-- The loop with `$subtimeout`. -/
def waitSubmitted (settings : Settings) : ℕ → Script Job
  | 0 => .test Job.submitted (.act Job.mvSubmitted (.act Job.setRunflset (run settings)))
      (.act Job.fail runerror)
  | subtimeout + 1 =>
    .test Job.submitted (.act Job.mvSubmitted (.act Job.setRunflset (run settings)))
      (quiet (waitSubmitted settings subtimeout))

def script (settings : Settings) : Script Job :=
  .act Job.nameBenchmark (.test Job.running (.act Job.fail runerror)
    (.test Job.rundir (.act Job.rmError (waitSubmitted settings 4)) (.act Job.fail runerror)))

/-! ### What the files should say -/

namespace Job

structure Starts (s : Job) : Prop where
  submitted : s.submitted = true
  running : s.running = false
  named : s.named = false
  runflset : s.runflset = false
  rmrundir : s.rmrundir = false
  failed : s.failed = false
  early : s.early = false
  died : s.died = false

def HasFile (s : Job) : Prop :=
  s.submitted = true ∨ s.running = true ∨ s.error = true ∨ s.stats = true

/-- Of a job that has ended. -/
structure Consistent (interrupted : Bool) (s : Job) : Prop where
  submitted : s.submitted = false
  running : s.running = false
  error : s.error = true ↔ s.failed = true ∨ interrupted = true

end Job

/-- Of a job that has ended: it is as it should be if the run directory was there, no interrupt came
before `$runflset` was set, and every file could be opened; and only then. -/
def AtEnd (start : Job) (interrupted : Bool) (s : Job) : Prop :=
  s.HasFile ∧ (s.Consistent interrupted ↔
    start.rundir = true ∧ s.early = false ∧ s.died = false)

/-- At a moment of the script it may be interrupted. -/
def Moment (start : Job) : Job → Prop :=
  Interruptible killCleanup Job.HasFile (AtEnd start true)

/-- The lock is not known to be there and will stay. -/
structure Left (start s : Job) : Prop where
  file : s.submitted = true ∨ s.running = true
  runflset : s.runflset = false
  reason : start.rundir = false ∨ s.early = true

/-- The lock is known to be there and will be removed. -/
structure Flagged (start s : Job) : Prop where
  rundir : start.rundir = true
  runflset : s.runflset = true
  named : s.named = true
  submitted : s.submitted = false
  early : s.early = false
  died : s.died = false
  file : s.HasFile
  writable : s.error = true → s.writable = true

/-- Nothing has gone wrong. -/
structure Working (start s : Job) : Prop extends Flagged start s where
  running : s.running = true
  error : s.error = false
  failed : s.failed = false

variable {start s : Job} {i : Bool} {P : Job → Prop} {settings : Settings}

/-! ### Errors -/

theorem Left.hasFile (hs : Left start s) : s.HasFile :=
  hs.file.imp_right Or.inl

theorem Left.atEnd (hs : Left start s) : AtEnd start i s := by
  refine ⟨hs.hasFile, iff_of_false ?_ ?_⟩
  · intro hend
    rcases hs.file with h | h
    · rw [hend.submitted] at h
      cases h
    · rw [hend.running] at h
      cases h
  · rintro ⟨hrundir, hearly, -⟩
    rcases hs.reason with h | h
    · rw [hrundir] at h
      cases h
    · rw [hearly] at h
      cases h

theorem always_runerror_of_left (hP : ∀ t, Left start t → P t) (hs : Left start s) :
    Always P (AtEnd start i) runerror s := by
  have hwritten : Left start s.writeError := ⟨hs.file, hs.runflset, hs.reason⟩
  have hunlocked : Left start s.writeError.rmRundir := ⟨hs.file, hs.runflset, hs.reason⟩
  have hdied : Left start s.die := ⟨hs.file, hs.runflset, hs.reason⟩
  refine always_test (hP s hs) (fun _ => ⟨hP s hs, hP _ hwritten, ?_⟩)
    fun _ => ⟨hP s hs, hdied.atEnd⟩
  refine always_test (hP _ hwritten) (fun hflag => ?_) fun _ => ?_
  · exact absurd (hwritten.runflset.symm.trans hflag) Bool.false_ne_true
  · exact always_test (hP _ hwritten) (fun _ => ⟨hP _ hwritten, hunlocked.atEnd⟩)
      fun _ => hwritten.atEnd

/-- Before the flag is set. -/
theorem moment_of_not_runflset (hfile : s.submitted = true ∨ s.running = true)
    (hflag : s.runflset = false) : Moment start s := by
  have hkilled : Left start s.kill := ⟨hfile, hflag, Or.inr (by simp [Job.kill, hflag])⟩
  exact ⟨hkilled.hasFile, always_runerror_of_left (fun _ ht => ht.hasFile) hkilled⟩

/-- The lock is removed. -/
theorem always_cleanup (hP : ∀ t, Flagged start t → P t) (hs : Flagged start s)
    (hfile : s.error = true ∨ s.stats = true)
    (herror : s.error = true ↔ s.failed = true ∨ i = true) :
    Always P (AtEnd start i) cleanup s := by
  have hremoved : Flagged start s.rmRunning :=
    { hs with file := Or.inr (Or.inr hfile) }
  have hend : ∀ t : Job, t = s.rmRunning ∨ t = s.rmRunning.rmRundir → AtEnd start i t := by
    rintro t (rfl | rfl)
    · exact ⟨hremoved.file, iff_of_true ⟨hs.submitted, rfl, herror⟩ ⟨hs.rundir, hs.early, hs.died⟩⟩
    · exact ⟨hremoved.file, iff_of_true ⟨hs.submitted, rfl, herror⟩ ⟨hs.rundir, hs.early, hs.died⟩⟩
  refine always_test (hP s hs) (fun _ => ⟨hP s hs, hP _ hremoved, ?_⟩) fun hflag => ?_
  · exact always_test (hP _ hremoved) (fun _ => ⟨hP _ hremoved, hend _ (Or.inr rfl)⟩)
      fun _ => hend _ (Or.inl rfl)
  · rw [hs.runflset] at hflag
    cases hflag

/-- The `ERROR` file is written, or the program dies. -/
theorem always_error (hP : ∀ t, Flagged start t → P t) (hs : Flagged start s)
    {next : Script Job}
    (hnext : ∀ t, Flagged start t → t.error = true → t.failed = s.failed →
      Always P (AtEnd start i) next t) :
    Always P (AtEnd start i) (.test Job.writable (.act Job.writeError (quiet next)) die) s := by
  refine always_test (hP s hs) (fun hwritable => ?_) fun hwritable => ⟨hP s hs, hs.file, ?_⟩
  · have hwritten : s.writeError.error = true := by simp [Job.writeError, hs.named]
    have hflagged : Flagged start s.writeError :=
      { hs with
        file := Or.inr (Or.inr (Or.inl hwritten))
        writable := fun _ => hwritable }
    exact ⟨hP s hs, hP _ hflagged, hnext _ hflagged hwritten rfl⟩
  · refine iff_of_false (fun hend => ?_) fun hgood => ?_
    · have herror : s.error = true := hend.error.mpr (Or.inl rfl)
      rw [hs.writable herror] at hwritable
      cases hwritable
    · cases hgood.2.2

theorem always_runerror (hP : ∀ t, Flagged start t → P t) (hs : Flagged start s)
    (hfailed : s.failed = true ∨ i = true) : Always P (AtEnd start i) runerror s :=
  always_error hP hs fun _ ht herror heq =>
    always_cleanup hP ht (Or.inl herror) (iff_of_true herror (heq ▸ hfailed))

/-- After the flag is set. -/
theorem Flagged.moment (hs : Flagged start s) : Moment start s := by
  have hkilled : Flagged start s.kill := { hs with early := by simp [Job.kill, hs.runflset] }
  exact ⟨hs.file, always_runerror (fun _ ht => ht.file) hkilled (Or.inr rfl)⟩

/-! ### The steps of a job -/

theorem always_finish (hs : Flagged start s) (hfile : s.error = true ∨ s.stats = true)
    (herror : s.error = true ↔ s.failed = true) :
    Always (Moment start) (AtEnd start false) finish s :=
  ⟨hs.moment, hs.moment, always_cleanup (fun _ ht => ht.moment) hs hfile (by simp [herror])⟩

theorem always_fail (hs : Flagged start s) :
    Always (Moment start) (AtEnd start false) runerror s.fail :=
  always_runerror (fun _ ht => ht.moment) { hs with } (Or.inl rfl)

theorem always_setupRerunScript (hs : Flagged start s) (hrunning : s.running = true)
    {next : Script Job} (hnext : Always (Moment start) (AtEnd start false) next s) :
    Always (Moment start) (AtEnd start false) (setupRerunScript next) s := by
  refine ⟨hs.moment, ⟨hs.moment, hnext⟩, hs.file, iff_of_false (fun hend => ?_) fun hgood => ?_⟩
  · have hremoved : s.running = false := hend.running
    rw [hrunning] at hremoved
    cases hremoved
  · cases hgood.2.2

theorem always_failedRun (hs : Working start s) :
    Always (Moment start) (AtEnd start false) failedRun s.fail := by
  have hfailed : Flagged start s.fail := { hs.toFlagged with }
  refine always_setupRerunScript hfailed hs.running ?_
  exact always_error (fun _ ht => ht.moment) hfailed fun t ht herror heq =>
    always_finish ht (Or.inl herror) (iff_of_true herror heq)

theorem always_compressStats (hs : Working start s) (hstats : s.stats = true) :
    Always (Moment start) (AtEnd start false) compressStats s := by
  have hfinish : Always (Moment start) (AtEnd start false) (quiet finish) s :=
    ⟨hs.moment, always_finish hs.toFlagged (Or.inr hstats) (by simp [hs.error, hs.failed])⟩
  have hfail := always_fail hs.toFlagged
  exact ⟨hs.moment, ⟨hs.moment, ⟨hs.moment, hfinish, hfail⟩, hfinish⟩, hfail⟩

theorem always_copied (hs : Working start s) (hstats : s.stats = true) :
    Always (Moment start) (AtEnd start false) (copied settings) s := by
  unfold copied
  split
  next =>
    exact ⟨hs.moment, always_finish hs.toFlagged (Or.inr hstats) (by simp [hs.error, hs.failed])⟩
  next => exact always_compressStats hs hstats

theorem always_results (hs : Working start s) :
    Always (Moment start) (AtEnd start false) (results settings) s := by
  have hcopied : Working start s.copyStats :=
    { hs with file := Or.inr (Or.inr (Or.inr rfl)) }
  have hnext : Always (Moment start) (AtEnd start false)
      (if settings.keepstatsfile then copied settings else quiet (copied settings))
      s.copyStats := by
    split
    next => exact always_copied hcopied rfl
    next => exact ⟨hcopied.moment, always_copied hcopied rfl⟩
  have hcopy := And.intro hs.moment (And.intro hnext (always_fail hs.toFlagged))
  unfold results
  dsimp only
  split
  next => exact ⟨hs.moment, hcopy⟩
  next => exact hcopy

theorem always_run (hs : Working start s) :
    Always (Moment start) (AtEnd start false) (run settings) s := by
  refine ⟨hs.moment, ⟨hs.moment, ?_⟩, always_fail hs.toFlagged⟩
  exact always_setupRerunScript hs.toFlagged hs.running
    ⟨hs.moment, always_results hs, always_failedRun hs⟩

/-! ### Whole jobs -/

/-- Up to the flag, with the lock in one of two places. -/
structure Waiting (start s : Job) : Prop where
  submitted : s.submitted = true
  running : s.running = false
  named : s.named = true
  runflset : s.runflset = false
  error : s.error = false
  failed : s.failed = false
  early : s.early = false
  died : s.died = false

theorem always_mvSubmitted (hs : Waiting start s) (hrundir : start.rundir = true) :
    Always (Moment start) (AtEnd start false)
      (.act Job.mvSubmitted (.act Job.setRunflset (run settings))) s := by
  refine ⟨moment_of_not_runflset (Or.inl hs.submitted) hs.runflset,
    moment_of_not_runflset (Or.inr rfl) hs.runflset, always_run ?_⟩
  exact ⟨⟨hrundir, rfl, hs.named, rfl, hs.early, hs.died, Or.inr (Or.inl rfl),
    fun herror => absurd (hs.error.symm.trans herror) Bool.false_ne_true⟩, rfl, hs.error, hs.failed⟩

theorem always_waitSubmitted (hs : Waiting start s) (hrundir : start.rundir = true)
    (subtimeout : ℕ) :
    Always (Moment start) (AtEnd start false) (waitSubmitted settings subtimeout) s := by
  have hmoment : Moment start s := moment_of_not_runflset (Or.inl hs.submitted) hs.runflset
  cases subtimeout with
  | zero =>
    refine always_test hmoment (fun _ => always_mvSubmitted hs hrundir) fun hfile => ?_
    rw [hs.submitted] at hfile
    cases hfile
  | succ subtimeout =>
    refine always_test hmoment (fun _ => always_mvSubmitted hs hrundir) fun hfile => ?_
    rw [hs.submitted] at hfile
    cases hfile

theorem always_script (hs : start.Starts) :
    Always (Moment start) (AtEnd start false) (script settings) start := by
  have hmoment : ∀ t : Job, t.submitted = start.submitted → t.runflset = start.runflset →
      Moment start t := fun t hfile hflag =>
    moment_of_not_runflset (Or.inl (hfile.trans hs.submitted)) (hflag.trans hs.runflset)
  refine ⟨hmoment _ rfl rfl, always_test (hmoment _ rfl rfl) (fun hrunning => ?_) fun _ => ?_⟩
  · exact absurd (hs.running.symm.trans hrunning) Bool.false_ne_true
  · refine always_test (hmoment _ rfl rfl) (fun hrundir => ⟨hmoment _ rfl rfl, ?_⟩)
      fun hrundir => ⟨hmoment _ rfl rfl, ?_⟩
    · exact always_waitSubmitted (s := start.nameBenchmark.rmError)
        ⟨hs.submitted, hs.running, rfl, hs.runflset, rfl, hs.failed, hs.early, hs.died⟩ hrundir 4
    · exact always_runerror_of_left
        (fun t ht => moment_of_not_runflset ht.file ht.runflset)
        ⟨Or.inl hs.submitted, hs.runflset, Or.inl hrundir⟩

/-- At every moment of a job there is one of the files. Those there are at its end are right if and
only if the run directory was there, no interrupt came before `$runflset` was set, and every file
that was opened could be. -/
theorem hasFile_and_consistent_iff (hs : start.Starts) {c : Config Job}
    (hrun : Reaches killCleanup ⟨script settings, start, false⟩ c) :
    c.state.HasFile ∧ (c.script = .exit → (c.state.Consistent c.interrupted ↔
      start.rundir = true ∧ c.state.early = false ∧ c.state.died = false)) := by
  have hkeeps : Keeps killCleanup Job.HasFile (AtEnd start false) (AtEnd start true) c :=
    hrun.keeps (always_script hs)
  have hend : c.script = .exit → AtEnd start c.interrupted c.state := by
    intro hscript
    have hatEnd := hkeeps.atEnd hscript
    split at hatEnd
    next h =>
      rw [h]
      exact hatEnd
    next h =>
      rw [Bool.eq_false_of_not_eq_true h]
      exact hatEnd
  refine ⟨?_, fun hscript => (hend hscript).2⟩
  by_cases hscript : c.script = .exit
  · exact (hend hscript).1
  · exact hkeeps.moment hscript

def submittedJob (rundir : Bool) : Job :=
  ⟨true, false, false, false, rundir, true, false, false, false, false, false, false⟩

theorem starts_submittedJob (rundir : Bool) : (submittedJob rundir).Starts :=
  ⟨rfl, rfl, rfl, rfl, rfl, rfl, rfl, rfl⟩

/-- A job that is killed while its benchmark runs. -/
def killedJob : Job :=
  ⟨false, false, true, false, false, true, true, true, true, false, false, false⟩

theorem consistent_killedJob : killedJob.HasFile ∧ killedJob.Consistent true := by
  have hrun : Reaches killCleanup ⟨script ⟨"gzip".toList, false, false⟩, submittedJob true, false⟩
      ⟨.exit, killedJob, true⟩ := by
    refine .head .act <| .head .test <| .head .test <| .head .act <| .head .test <| .head .act <|
      .head .act <| .head (.interrupt ?_) ?_
    · exact nofun
    · exact .head .test <| .head .act <| .head .act <| .head .test <| .head .act <| .head .act <|
        .head .test <| .head .act .refl
  have hfiles := hasFile_and_consistent_iff (starts_submittedJob true) hrun
  exact ⟨hfiles.1, (hfiles.2 rfl).mpr ⟨rfl, rfl, rfl⟩⟩

/-- Without a run directory the `SUBMITTED` file stays. -/
theorem not_consistent_withoutRundir : ¬ ∀ (settings : Settings) (start : Job), start.Starts →
    ∀ c, Reaches killCleanup ⟨script settings, start, false⟩ c → c.state.HasFile ∧
      (c.script = .exit → c.state.Consistent c.interrupted) := by
  intro hclaim
  have hrun : Reaches killCleanup ⟨script ⟨"gzip".toList, false, false⟩, submittedJob false, false⟩
      ⟨.exit, (submittedJob false).nameBenchmark.fail.writeError, false⟩ :=
    .head .act <| .head .test <| .head .test <| .head .act <| .head .test <| .head .act <|
      .head .act <| .head .test <| .head .test .refl
  have hend := (hclaim _ _ (starts_submittedJob false) _ hrun).2 rfl
  exact absurd hend.submitted (by decide)

end Awb.Batch.StatusFiles
