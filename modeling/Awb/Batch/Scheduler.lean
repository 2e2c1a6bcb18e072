import Awb.Builder.Paths
import Mathlib.Tactic

/-! `Asim::Batch::Netbatch::scheduler`: a loop that asks the batch system for the jobs that wait and
run, and returns when one more may be submitted. -/

namespace Awb.Batch.Netbatch

/-! ### The answers of the batch system -/

/-- The blanks of `\s`. -/
def isSpace (c : Char) : Bool := [' ', '\t', '\n', '\x0b', '\x0c', '\r'].contains c

/-- The word, without regard to case, and the blanks behind it. -/
def skipWord (word text : Text) : Option Text :=
  let rest := text.drop word.length
  if (text.take word.length).map Char.toLower = word ∧ (rest.head?.any isSpace) then
    some (rest.dropWhile isSpace)
  else none

/-- The words of a line that reports how many jobs wait. -/
def waitingWords : List Text :=
  ["number".toList, "of".toList, "jobs".toList, "in".toList, "waiting".toList, "queue:".toList]

/-- `/Number\s+of\s+jobs\s+in\s+WAITING\s+queue:\s+([0-9]+)/i`, at the start of a text. -/
def matchWaitingAt (text : Text) : Option ℕ :=
  (waitingWords.foldlM (fun text word => skipWord word text) text).bind fun rest =>
    let digits := rest.takeWhile Char.isDigit
    if digits = [] then none else some (Nat.ofDigitChars 10 digits 0)

/-- The first place where the expression matches. -/
def matchWaiting (line : Text) : Option ℕ := line.tails.findSome? matchWaitingAt

/-- The number in the last line that reports one. -/
def numWaiting (lines : List Text) : ℕ := lines.foldl (fun n line => (matchWaiting line).getD n) 0

/-- `/^Job Name:(.*)\.asimlog(.*)/` -/
def isAsimJob (line : Text) : Bool :=
  "Job Name:".toList.isPrefixOf line &&
    (line.drop "Job Name:".toList.length).tails.any ".asimlog".toList.isPrefixOf

/-- How many jobs run, of the user and in total. -/
structure Running where
  user : ℕ
  total : ℕ

section
variable (startsWithUser : Text → Bool)

/-- `/^User: $user(.*)/`, where the name is a regular expression of its own. -/
def isUserLine (line : Text) : Bool :=
  "User: ".toList.isPrefixOf line && startsWithUser (line.drop "User: ".toList.length)

/-- The line behind one with the user is read with it. -/
def countRunning : List Text → Running
  | [] => ⟨0, 0⟩
  | line :: lines =>
    if isUserLine startsWithUser line then
      match lines with
      | [] => ⟨0, 0⟩
      | jobname :: lines =>
        let running := countRunning lines
        if isAsimJob jobname then ⟨running.user + 1, running.total + 1⟩ else running
    else
      let running := countRunning lines
      if isAsimJob line then { running with total := running.total + 1 } else running

/-- The lines that both commands print. -/
structure Answer where
  waitJobs : List Text
  runJobs : List Text

namespace Answer

def waiting (a : Answer) : ℕ := numWaiting a.waitJobs

def userRunning (a : Answer) : ℕ := (countRunning startsWithUser a.runJobs).user

def totalRunning (a : Answer) : ℕ := (countRunning startsWithUser a.runJobs).total

end Answer

/-! ### The loop -/

/-- The arguments of `scheduler`. -/
structure Args where
  maxRunningJobs : Option ℕ
  maxWaitingJobs : Option ℕ
  maxAsimJobs : Option ℕ
  maxJobsPerPeriod : Option ℕ

/-- `$arg || default` -/
def orDefault (arg : Option ℕ) (default : ℕ) : ℕ := (arg.filter (· ≠ 0)).getD default

namespace Args

def MAX_RUNNING_JOBS (args : Args) : ℕ := orDefault args.maxRunningJobs 175

def MAX_WAITING_JOBS (args : Args) : ℕ := orDefault args.maxWaitingJobs 10

def MAX_ASIM_JOBS (args : Args) : ℕ := orDefault args.maxAsimJobs 300

def MAX_JOBS_PER_PERIOD (args : Args) : ℕ := orDefault args.maxJobsPerPeriod 10

end Args

variable (args : Args)

/-- The user has more running jobs than allowed without a limit on the submissions. -/
def isBusy (a : Answer) : Bool := args.MAX_RUNNING_JOBS < a.userRunning startsWithUser

/-- A limit is exceeded; `submitted` is `$JOBS_SUBMITTED_CURRENT_CYCLE`. -/
def sleeps (submitted : ℕ) (a : Answer) : Bool :=
  args.MAX_WAITING_JOBS < a.waiting || args.MAX_ASIM_JOBS < a.totalRunning startsWithUser ||
    (isBusy startsWithUser args a && args.MAX_JOBS_PER_PERIOD < submitted)

/-- What a turn of the loop ends with. -/
inductive Event
  | sleep (answer : Answer)
  | permit (answer : Answer)

/-- What was done so far: the events, the counter, and the answers that have not been asked for. -/
structure Progress where
  events : List Event
  submitted : ℕ
  rest : List Answer

def Progress.after (events : List Event) (p : Progress) : Progress :=
  { p with events := events ++ p.events }

/-- A call of `scheduler`. It waits for more answers if all of them send it to sleep. -/
def scheduler (submitted : ℕ) : List Answer → Progress
  | [] => ⟨[], submitted, []⟩
  | a :: answers =>
    if sleeps startsWithUser args submitted a then (scheduler 0 answers).after [.sleep a]
    else ⟨[.permit a], submitted + 1, answers⟩

/-- Some calls, with the same limits. -/
def schedulers : ℕ → ℕ → List Answer → Progress
  | 0, submitted, answers => ⟨[], submitted, answers⟩
  | n + 1, submitted, answers =>
    let first := scheduler startsWithUser args submitted answers
    (schedulers n first.submitted first.rest).after first.events

/-! ### The rules -/

namespace Event

def isSleep : Event → Bool
  | sleep _ => true
  | permit _ => false

/-- A permission while many jobs of the user run. -/
def isBusyPermit : Event → Bool
  | sleep _ => false
  | permit a => isBusy startsWithUser args a

end Event

/-- The documented rules a, b and c. -/
structure Respects (events : List Event) : Prop where
  waiting : ∀ a, .permit a ∈ events → a.waiting < args.MAX_WAITING_JOBS
  total : ∀ a, .permit a ∈ events → a.totalRunning startsWithUser < args.MAX_ASIM_JOBS
  period : ∀ es, es <:+: events → (∀ e ∈ es, e.isSleep = false) →
    es.countP (Event.isBusyPermit startsWithUser args) ≤ args.MAX_JOBS_PER_PERIOD

/-- Some calls meet no limit exactly. When they do not sleep, less jobs wait and run than allowed,
and if many jobs of the user run, then not all of the permissions since the last sleep were given
while many jobs ran, or there were not yet as many as allowed. -/
def Fits : ℕ → ℕ → ℕ → List Answer → Prop
  | 0, _, _, _ => True
  | _ + 1, _, _, [] => True
  | n + 1, submitted, busy, a :: answers =>
    if sleeps startsWithUser args submitted a then Fits (n + 1) 0 0 answers
    else a.waiting ≠ args.MAX_WAITING_JOBS ∧
      a.totalRunning startsWithUser ≠ args.MAX_ASIM_JOBS ∧
      ¬(isBusy startsWithUser args a ∧ submitted = args.MAX_JOBS_PER_PERIOD ∧ busy = submitted) ∧
      Fits n (submitted + 1) (busy + if isBusy startsWithUser args a then 1 else 0) answers

end

/-! ### Turns -/

section
variable {startsWithUser : Text → Bool} {args : Args}

theorem schedulers_nil (n submitted : ℕ) :
    (schedulers startsWithUser args n submitted []).events = [] := by
  induction n generalizing submitted with
  | zero => rfl
  | succ n ih => exact ih submitted

/-- A sleep is a turn of the call that goes on afterwards. -/
theorem schedulers_sleep {submitted : ℕ} {a : Answer} {answers : List Answer} (n : ℕ)
    (h : sleeps startsWithUser args submitted a = true) :
    (schedulers startsWithUser args (n + 1) submitted (a :: answers)).events =
      .sleep a :: (schedulers startsWithUser args (n + 1) 0 answers).events := by
  rw [schedulers, scheduler, if_pos h]
  rfl

theorem schedulers_permit {submitted : ℕ} {a : Answer} {answers : List Answer} (n : ℕ)
    (h : ¬sleeps startsWithUser args submitted a = true) :
    (schedulers startsWithUser args (n + 1) submitted (a :: answers)).events =
      .permit a :: (schedulers startsWithUser args n (submitted + 1) answers).events := by
  rw [schedulers, scheduler, if_neg h]
  rfl

/-! ### The rules, turn by turn -/

variable (startsWithUser args) in
/-- The rules hold of some events, after some permissions while many jobs ran. -/
def Within : ℕ → List Event → Prop
  | _, [] => True
  | _, .sleep _ :: events => Within 0 events
  | busy, .permit a :: events =>
    let busy' := busy + if isBusy startsWithUser args a then 1 else 0
    a.waiting < args.MAX_WAITING_JOBS ∧ a.totalRunning startsWithUser < args.MAX_ASIM_JOBS ∧
      busy' ≤ args.MAX_JOBS_PER_PERIOD ∧ Within busy' events

/-- The events of a period, the first of which began before them. -/
theorem periods_cons_iff {e : Event} {events : List Event} {bound : List Event → Prop} :
    (∀ es, es <:+: e :: events → (∀ e ∈ es, e.isSleep = false) → bound es) ↔
      (∀ es, es <+: e :: events → (∀ e ∈ es, e.isSleep = false) → bound es) ∧
        ∀ es, es <:+: events → (∀ e ∈ es, e.isSleep = false) → bound es := by
  simp only [List.infix_cons_iff, or_imp, forall_and]

theorem prefixes_sleep_iff {a : Answer} {events : List Event} {bound : List Event → Prop} :
    (∀ es, es <+: .sleep a :: events → (∀ e ∈ es, e.isSleep = false) → bound es) ↔ bound [] := by
  constructor
  · exact fun h => h [] List.nil_prefix fun _ he => nomatch he
  · intro h es hes hsleep
    rcases List.prefix_cons_iff.mp hes with rfl | ⟨es, rfl, -⟩
    · exact h
    · exact absurd (hsleep _ List.mem_cons_self) Bool.true_eq_false_eq_False

theorem prefixes_permit_iff {a : Answer} {events : List Event} {bound : List Event → Prop} :
    (∀ es, es <+: .permit a :: events → (∀ e ∈ es, e.isSleep = false) → bound es) ↔
      bound [] ∧
        ∀ es, es <+: events → (∀ e ∈ es, e.isSleep = false) → bound (.permit a :: es) := by
  constructor
  · refine fun h => ⟨h [] List.nil_prefix (fun _ he => nomatch he), fun es hes hsleep => ?_⟩
    exact h _ (List.cons_prefix_cons.mpr ⟨rfl, hes⟩) (List.forall_mem_cons.mpr ⟨rfl, hsleep⟩)
  · rintro ⟨hnil, hcons⟩ es hes hsleep
    rcases List.prefix_cons_iff.mp hes with rfl | ⟨es', rfl, hes'⟩
    · exact hnil
    · exact hcons es' hes' (List.forall_mem_cons.mp hsleep).2

/-- A period may have begun before the events. -/
theorem within_iff {busy : ℕ} (hbusy : busy ≤ args.MAX_JOBS_PER_PERIOD) (events : List Event) :
    Within startsWithUser args busy events ↔ Respects startsWithUser args events ∧
      ∀ es, es <+: events → (∀ e ∈ es, e.isSleep = false) →
        busy + es.countP (Event.isBusyPermit startsWithUser args) ≤ args.MAX_JOBS_PER_PERIOD := by
  have hrespects : ∀ events, Respects startsWithUser args events ↔
      (∀ a, .permit a ∈ events → a.waiting < args.MAX_WAITING_JOBS) ∧
      (∀ a, .permit a ∈ events → a.totalRunning startsWithUser < args.MAX_ASIM_JOBS) ∧
      ∀ es, es <:+: events → (∀ e ∈ es, e.isSleep = false) →
        es.countP (Event.isBusyPermit startsWithUser args) ≤ args.MAX_JOBS_PER_PERIOD :=
    fun events => ⟨fun h => ⟨h.waiting, h.total, h.period⟩, fun ⟨hw, ht, hp⟩ => ⟨hw, ht, hp⟩⟩
  induction events generalizing busy with
  | nil =>
    refine iff_of_true trivial ⟨⟨fun _ h => (nomatch h), fun _ h => (nomatch h), ?_⟩, ?_⟩
    · intro es hes _
      rw [List.infix_nil.mp hes]
      exact Nat.zero_le _
    · intro es hes _
      rw [List.prefix_nil.mp hes]
      exact hbusy
  | cons e events ih =>
    cases e with
    | sleep a =>
      rw [Within]
      refine (ih (Nat.zero_le _)).trans ?_
      rw [prefixes_sleep_iff, hrespects, hrespects, periods_cons_iff, prefixes_sleep_iff]
      simp only [List.mem_cons, reduceCtorEq, false_or]
      constructor
      · exact fun ⟨⟨hw, ht, hp⟩, _⟩ => ⟨⟨hw, ht, Nat.zero_le _, hp⟩, hbusy⟩
      · refine fun ⟨⟨hw, ht, _, hp⟩, _⟩ => ⟨⟨hw, ht, hp⟩, fun es hes hsleep => ?_⟩
        rw [Nat.zero_add]
        exact hp es hes.isInfix hsleep
    | permit a =>
      have hcount : ∀ es : List Event,
          (Event.permit a :: es).countP (Event.isBusyPermit startsWithUser args) =
            es.countP (Event.isBusyPermit startsWithUser args) +
              if isBusy startsWithUser args a then 1 else 0 := fun es => List.countP_cons
      rw [Within, hrespects, periods_cons_iff, prefixes_permit_iff, prefixes_permit_iff]
      simp only [List.mem_cons, Event.permit.injEq, forall_eq_or_imp, hcount]
      constructor
      · rintro ⟨hwa, hta, hbusy', hwithin⟩
        obtain ⟨hr, hbegins⟩ := (ih hbusy').mp hwithin
        obtain ⟨hw, ht, hp⟩ := (hrespects events).mp hr
        refine ⟨⟨⟨hwa, hw⟩, ⟨hta, ht⟩, ⟨Nat.zero_le _, fun es hes hsleep => ?_⟩, hp⟩, hbusy,
          fun es hes hsleep => ?_⟩
        · have := hbegins es hes hsleep
          omega
        · have := hbegins es hes hsleep
          omega
      · rintro ⟨⟨⟨hwa, hw⟩, ⟨hta, ht⟩, -, hp⟩, -, hbegins⟩
        have hbusy' : busy + (if isBusy startsWithUser args a then 1 else 0) ≤
            args.MAX_JOBS_PER_PERIOD := by
          have := hbegins [] List.nil_prefix fun _ he => nomatch he
          simpa using this
        refine ⟨hwa, hta, hbusy', (ih hbusy').mpr ⟨(hrespects events).mpr ⟨hw, ht, hp⟩, ?_⟩⟩
        intro es hes hsleep
        have := hbegins es hes hsleep
        omega

theorem respects_iff_within (events : List Event) :
    Respects startsWithUser args events ↔ Within startsWithUser args 0 events := by
  rw [within_iff (Nat.zero_le _)]
  refine ⟨fun h => ⟨h, fun es hes hsleep => ?_⟩, And.left⟩
  rw [Nat.zero_add]
  exact h.period es hes.isInfix hsleep

/-- A turn without sleep meets no limit, or it goes beyond one of them by one. -/
theorem within_iff_fits {submitted busy : ℕ} (hle : busy ≤ submitted)
    (hbusy : busy ≤ args.MAX_JOBS_PER_PERIOD) (n : ℕ) (answers : List Answer) :
    Within startsWithUser args busy (schedulers startsWithUser args n submitted answers).events ↔
      Fits startsWithUser args n submitted busy answers := by
  induction answers generalizing n submitted busy with
  | nil =>
    rw [schedulers_nil]
    cases n <;> exact Iff.rfl
  | cons a answers ih =>
    cases n with
    | zero => exact Iff.rfl
    | succ n =>
      rw [Fits]
      by_cases hsleeps : sleeps startsWithUser args submitted a = true
      · rw [if_pos hsleeps, schedulers_sleep n hsleeps]
        exact ih (le_refl 0) (Nat.zero_le _) (n + 1)
      · rw [if_neg hsleeps, schedulers_permit n hsleeps, Within]
        simp only [sleeps, Bool.or_eq_true, Bool.and_eq_true, decide_eq_true_eq, not_or, not_and,
          not_lt] at hsleeps
        obtain ⟨⟨hwaiting, htotal⟩, hperiod⟩ := hsleeps
        rw [hwaiting.lt_iff_ne, htotal.lt_iff_ne]
        refine and_congr_right fun _ => and_congr_right fun _ => ?_
        by_cases ha : isBusy startsWithUser args a = true
        · have hsubmitted := hperiod ha
          simp only [ha, if_true, true_and]
          by_cases hfull : busy + 1 ≤ args.MAX_JOBS_PER_PERIOD
          · rw [ih (by omega) hfull]
            refine and_congr (iff_of_true hfull ?_) Iff.rfl
            omega
          · refine iff_of_false (fun h => hfull h.1) fun h => h.1 ?_
            omega
        · rw [if_neg ha, Nat.add_zero, ih (by omega) hbusy]
          exact and_congr (iff_of_true hbusy fun h => ha h.1) Iff.rfl

variable (startsWithUser args) in
/-- The permissions follow the documented rules exactly if no limit is met when they are given. -/
theorem schedulers_respects_iff (n : ℕ) (answers : List Answer) :
    Respects startsWithUser args (schedulers startsWithUser args n 0 answers).events ↔
      Fits startsWithUser args n 0 0 answers := by
  rw [respects_iff_within]
  exact within_iff_fits (le_refl 0) (Nat.zero_le _) n answers

end

/-- As many jobs wait as may wait by default. -/
def tenWaiting : Answer := ⟨["Number of jobs in WAITING queue: 10\n".toList], []⟩

/-- One more is submitted. -/
theorem not_respects_tenWaiting :
    ¬Respects "joe".toList.isPrefixOf ⟨none, none, none, none⟩
      (schedulers "joe".toList.isPrefixOf ⟨none, none, none, none⟩ 1 0 [tenWaiting]).events := by
  intro h
  have hpermit : (schedulers "joe".toList.isPrefixOf ⟨none, none, none, none⟩ 1 0
      [tenWaiting]).events = [.permit tenWaiting] := by
    rw [schedulers_permit 0 (by decide)]
    rfl
  have hlt := h.waiting tenWaiting (hpermit ▸ List.mem_singleton.mpr rfl)
  exact absurd hlt (by decide)

end Awb.Batch.Netbatch
