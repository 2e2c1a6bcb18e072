import Awb.Classic.EventFlags
import Awb.Classic.PmSchedule
import Awb.Classic.Reachable

/-! Periods of zero. Nothing between the arguments and the division of `Schedule` looks at the
period, so a request is safe exactly if it spells no zero where a period is read. -/

namespace Awb.Classic

/-- A periodic item without a period, which `Schedule` divides by. -/
def WorkItem.ZeroPeriod (item : WorkItem) : Prop :=
  item.trigger.isPeriod = true ∧ item.period = 0

/-- All items the controller holds have a period if they need one. -/
structure Controller.PeriodsNonzero (ctl : Controller) : Prop where
  queued : ∀ x ∈ ctl.ctrlWorkList, ¬ x.ZeroPeriod
  waiting : ∀ k, ∀ x ∈ ctl.schedule.list k, ¬ x.ZeroPeriod

/-- A command that arrives later is not one without a period. -/
def Label.PeriodNonzero : Label → Prop
  | .arrive item => ¬ item.ZeroPeriod
  | _ => True

/-- Every periodic item that was put on the work list has a period, and no run of the loop from
there on divides by zero, unless a later command brings a zero. -/
structure Controller.Safe (ctl : Controller) : Prop where
  period : ∀ item ∈ ctl.ctrlWorkList, item.trigger.isPeriod = true → item.period ≠ 0
  run : ∀ current system tr loop executed,
    Lts.Run (Lts.guarded (fun _ l => l.PeriodNonzero) Step)
      { toController := ctl, current, system } tr loop →
        loopStep loop executed ≠ .error .divideByZero

/-! ### The division -/

theorem align_divideByZero {item : WorkItem} {n current : UInt64}
    (h : Schedule.align item n current = .error .divideByZero) : item.period = 0 := by
  unfold Schedule.align at h
  split_ifs at h with hp
  · exact hp
  · simp at h

theorem schedule_divideByZero {item : WorkItem} {s : Schedule} {current : Counters}
    (h : item.schedule s current = .error .divideByZero) : item.ZeroPeriod := by
  unfold WorkItem.schedule Schedule.schedule at h
  split at h
  · simp at h
  cases ha : Schedule.alignPeriod item current with
  | error f =>
    simp only [ha, bind, Except.bind, Except.error.injEq] at h
    subst h
    unfold Schedule.alignPeriod at ha
    unfold WorkItem.ZeroPeriod
    split at ha <;> rename_i ht
    case h_5 => simp at ha
    all_goals exact ⟨by rw [ht]; rfl, align_divideByZero ha⟩
  | ok x =>
    cases hc : x.trigger.counter <;> simp [ha, bind, Except.bind, hc] at h

theorem Move.periodsNonzero {ctl ctl' : LoopState} {l : Label} (h : Move ctl l ctl')
    (hl : l.PeriodNonzero) (hp : ctl.PeriodsNonzero) : ctl'.PeriodsNonzero := by
  refine ⟨fun x hx => ?_, fun k x hx => ?_⟩
  · rcases h.mem_ctrlWorkList hx with hx | ⟨c, -, rfl⟩
    · exact hp.queued x hx
    · exact hl
  · rcases h.mem_list hx with hx | ⟨item, hs, -, -, ha⟩
    · exact hp.waiting k x hx
    · have hitem : ¬ item.ZeroPeriod := by
        rcases h.scheduled_holds hs with hx | ⟨k', hx⟩
        · exact hp.queued item hx
        · exact hp.waiting k' item hx
      rwa [WorkItem.ZeroPeriod, alignPeriod_trigger ha, alignPeriod_period ha]

theorem run_periodsNonzero {ctl ctl' : LoopState} {tr : List Label}
    (run : Lts.Run (Lts.guarded (fun _ l => l.PeriodNonzero) Step) ctl tr ctl')
    (hp : ctl.PeriodsNonzero) : ctl'.PeriodsNonzero :=
  run.invariant (fun _ c => c.PeriodsNonzero) hp
    fun _ _ _ _ h hs => hs.2.move.periodsNonzero hs.1 h

theorem loopStep_ne_divideByZero {ctl : LoopState} (hp : ctl.PeriodsNonzero)
    (executed : Counters) : loopStep ctl executed ≠ .error .divideByZero := by
  intro h
  rcases loopStep_error h with ⟨-, item, rest, hw, hs⟩ | ⟨-, hready⟩ |
    ⟨-, item, s, hready, -, hs⟩ | h | h
  · exact hp.queued item (by simp [hw]) (schedule_divideByZero hs)
  · obtain ⟨k, -, hk⟩ := Schedule.firstReady_error hready
    unfold Schedule.readyFrom at hk
    split at hk
    · simp at hk
    · split_ifs at hk
      simp at hk
  · obtain ⟨k, hk⟩ := mem_of_readyEvent hready
    exact hp.waiting k item hk (schedule_divideByZero hs)
  · simp at h
  · simp at h

/-- What decides is the items on the controller's work list. -/
theorem safe_iff {ctl : Controller} (hw : ∀ k, ∀ x ∈ ctl.schedule.list k, ¬ x.ZeroPeriod) :
    ctl.Safe ↔ ∀ x ∈ ctl.ctrlWorkList, ¬ x.ZeroPeriod := by
  constructor
  · intro h x hx hz
    exact h.period x hx hz.1 hz.2
  · intro h
    refine ⟨fun x hx ht hz => h x hx ⟨ht, hz⟩, fun current system tr loop executed run => ?_⟩
    exact loopStep_ne_divideByZero (run_periodsNonzero run ⟨h, hw⟩) executed

/-! ### The command line -/

def periodFlags : List String :=
  ["-pc", "-pi", "-pm", "-pn", "-sn", "-sc", "-si", "-sm", "-rscp", "-rsnp", "-rsip", "-rsmp"]

/-- What belongs to a flag: a regular expression, which may be left out, and a count. -/
inductive Operands
  | none | regex | count | regexCount
  deriving DecidableEq, Repr

def operandsOf (flag : String) : Operands :=
  if flag = "-e" then .none
  else if flag = "-tr" then .regex
  else if flag ∈ ["-ti", "-tm", "-tc", "-tn"] then .regexCount
  else .count

def regexWidth (rest : List String) : Nat :=
  if (rest.headD " ").toList.head? = some '/' then 1 else 0

/-- How many of the arguments behind a flag belong to it. -/
def Operands.width (rest : List String) : Operands → Nat
  | none => 0
  | regex => regexWidth rest
  | count => 1
  | regexCount => regexWidth rest + 1

/-- Each flag of a command line, with the argument that follows it. -/
def flagOperands : Nat → List String → List (String × String)
  | _, [] => []
  | skip + 1, _ :: rest => flagOperands skip rest
  | 0, arg :: rest =>
    (rest.head?.map (arg, ·)).toList ++ flagOperands ((operandsOf arg).width rest) rest

theorem traceRegex_ok {cs : List Char} {regex : String} {incr level level' : Nat}
    (h : traceRegex cs level = .ok (incr, regex, level')) : incr = 1 := by
  unfold traceRegex at h
  split_ifs at h
  simp only [Except.ok.injEq, Prod.mk.injEq] at h
  exact h.1.symm

theorem parseTraceCmd_width {command regex : String} {incr level : Nat}
    (h : parseTraceCmd command = .ok (incr, regex, level)) :
    incr = if command.toList.head? = some '/' then 1 else 0 := by
  simp only [parseTraceCmd] at h
  by_cases hs : command.toList.head? = some '/'
  · rw [if_pos hs] at h ⊢
    split at h
    · exact traceRegex_ok h
    · split_ifs at h
      exact traceRegex_ok h
  · rw [if_neg hs] at h ⊢
    simp only [Except.ok.injEq, Prod.mk.injEq] at h
    exact h.1.symm

namespace EventAction

def operands : EventAction → Operands
  | eventsNow => .none
  | enableTrace => .regex
  | delayTrace _ => .regexCount
  | _ => .count

/-- The action schedules a periodic item, with the next argument as its period. -/
def periodic : EventAction → Bool
  | command _ t | startEvents t => t.trigger.isPeriod
  | _ => false

def delaysOnce : EventAction → Bool
  | delayTrace t => !t.trigger.isPeriod
  | _ => true

end EventAction

/-- The branches of the chain that read a period are those of the period flags. -/
theorem eventBranches_spec : ∀ b ∈ eventBranches, b.action.operands = operandsOf b.flag ∧
    b.action.periodic = decide (b.flag ∈ periodFlags) ∧ b.action.delaysOnce = true := by
  decide

/-- What a step of the parser adds to the work list, and that it has a period if `ok`. -/
def Adds (st st' : EventState) (ok : Prop) : Prop :=
  st'.schedule = st.schedule ∧ ∃ new, st'.ctrlWorkList = st.ctrlWorkList ++ new ∧
    ((∀ x ∈ new, ¬ x.ZeroPeriod) ↔ ok)

theorem adds_command (st : EventState) (t : Later) (kind : WorkKind) (count : UInt64) :
    Adds st (st.command (t.command kind count)) (t.trigger.isPeriod = true → count ≠ 0) := by
  refine ⟨rfl, [.new st.nextId (t.command kind count)], rfl, ?_⟩
  simp [WorkItem.ZeroPeriod, WorkItem.new, Later.command]

theorem Adds.congr {st st' : EventState} {ok ok' : Prop} (h : Adds st st' ok) (he : ok ↔ ok') :
    Adds st st' ok' := by
  obtain ⟨hs, new, hn, hok⟩ := h
  exact ⟨hs, new, hn, hok.trans he⟩

theorem Adds.trans {st st' st'' : EventState} {ok ok' : Prop} (h : Adds st st' ok)
    (h' : Adds st' st'' ok') : Adds st st'' (ok ∧ ok') := by
  obtain ⟨hs, new, hn, hok⟩ := h
  obtain ⟨hs', new', hn', hok'⟩ := h'
  refine ⟨hs'.trans hs, new ++ new', by rw [hn', hn, List.append_assoc], ?_⟩
  rw [List.forall_mem_append, hok, hok']

theorem adds_none {st st' : EventState} (hs : st'.schedule = st.schedule)
    (hl : st'.ctrlWorkList = st.ctrlWorkList) : Adds st st' True :=
  ⟨hs, [], by simpa using hl, by simp⟩

theorem EventAction.run_ok {env : Environment} {st st' : EventState} {rest : List String}
    {a : EventAction} {used : Nat} (h : a.run env st rest = .ok (used, st'))
    (hd : a.delaysOnce = true) : used = a.operands.width rest ∧
      Adds st st' (a.periodic = true → ∀ n ∈ rest.head?, env.count n ≠ 0) := by
  cases a with
  | command kind t =>
    cases rest with
    | nil => simp [run] at h
    | cons n rest =>
      simp only [run, Except.ok.injEq, Prod.mk.injEq] at h
      obtain ⟨rfl, rfl⟩ := h
      exact ⟨rfl, (adds_command ..).congr (by simp [periodic])⟩
  | startEvents t =>
    simp only [run] at h
    split_ifs at h
    cases rest with
    | nil => simp at h
    | cons n rest =>
      simp only [Except.ok.injEq, Prod.mk.injEq] at h
      obtain ⟨rfl, rfl⟩ := h
      exact ⟨rfl, (adds_command ..).congr (by simp [periodic])⟩
  | eventsNow =>
    simp only [run] at h
    split_ifs at h
    simp only [Except.ok.injEq, Prod.mk.injEq] at h
    obtain ⟨rfl, rfl⟩ := h
    exact ⟨rfl, (adds_command ..).congr
      (by simp [periodic, Later.cycleOnce, ActionTrigger.isPeriod])⟩
  | xcheck =>
    cases rest with
    | nil => simp [run] at h
    | cons n rest =>
      simp only [run, Except.ok.injEq, Prod.mk.injEq] at h
      obtain ⟨rfl, rfl⟩ := h
      exact ⟨rfl, (adds_none rfl rfl).congr (by simp [periodic])⟩
  | enableTrace =>
    simp only [run] at h
    split at h
    · simp at h
    · rename_i incr regex level hp
      simp only [Except.ok.injEq, Prod.mk.injEq] at h
      obtain ⟨rfl, rfl⟩ := h
      exact ⟨parseTraceCmd_width hp, (adds_none rfl rfl).congr (by simp [periodic])⟩
  | delayTrace t =>
    simp only [run] at h
    split at h
    · simp at h
    · rename_i incr regex level hp
      split at h
      · simp at h
      · rename_i n rest' _
        simp only [Except.ok.injEq, Prod.mk.injEq] at h
        obtain ⟨rfl, rfl⟩ := h
        simp only [delaysOnce, Bool.not_eq_true'] at hd
        exact ⟨congrArg (· + 1) (parseTraceCmd_width hp),
          (adds_command ..).congr (by simp [periodic, hd])⟩

theorem parseOneEvent_ok {env : Environment} {st st' : EventState} {arg : String}
    {rest : List String} {used : Nat}
    (h : parseOneEvent env st arg rest = .ok (some used, st')) :
    used = (operandsOf arg).width rest ∧
      Adds st st' (arg ∈ periodFlags → ∀ n ∈ rest.head?, env.count n ≠ 0) := by
  unfold parseOneEvent at h
  split_ifs at h
  split at h
  · simp at h
  · rename_i b hb
    obtain ⟨hflag, -⟩ : b.flag = arg ∧ b.action.applies rest = true := by
      simpa using List.find?_some hb
    obtain ⟨hop, hper, hdelay⟩ := eventBranches_spec b (List.mem_of_find?_eq_some hb)
    split at h
    · simp at h
    · rename_i used' st'' hrun
      simp only [Except.ok.injEq, Prod.mk.injEq, Option.some.injEq] at h
      obtain ⟨rfl, rfl⟩ := h
      obtain ⟨hw, hadds⟩ := EventAction.run_ok hrun hdelay
      rw [hper, decide_eq_true_iff, hflag] at hadds
      rw [hop, hflag] at hw
      exact ⟨hw, hadds⟩

/-- An accepted command line adds a zero period exactly if a period flag is followed by a zero. -/
theorem parseEvents_ok {env : Environment} {args : List String} {skip : Nat} {st st' : EventState}
    (h : parseEvents env skip st args = .ok (true, st')) : Adds st st'
      (∀ p ∈ flagOperands skip args, p.1 ∈ periodFlags → env.count p.2 ≠ 0) := by
  induction args generalizing skip st with
  | nil =>
    obtain rfl : st = st' := by cases skip <;> simpa [parseEvents] using h
    exact (adds_none rfl rfl).congr (by cases skip <;> simp [flagOperands])
  | cons arg rest ih =>
    cases skip with
    | succ skip => exact ih h
    | zero =>
      rw [parseEvents] at h
      split at h
      · simp at h
      · simp at h
      · rename_i used st'' hone
        obtain ⟨rfl, hadds⟩ := parseOneEvent_ok hone
        refine (hadds.trans (ih h)).congr ?_
        rw [flagOperands, List.forall_mem_append]
        cases rest <;> simp

/-! ### The workbench -/

def periodActions : List String :=
  ["cycle_period", "nanosecond_period", "inst_period", "macroinst_period"]

/-- The action is periodic and its time reads as 0. -/
def ZeroTime (action time : String) : Prop :=
  action ∈ periodActions ∧ scanUnsigned time.toList = some 0

/-- The result of an accepted command: one new item. -/
def Schedules (ctl ctl' : Controller) (ok : Prop) : Prop :=
  ctl'.schedule = ctl.schedule ∧ ∃ item, ctl'.ctrlWorkList = ctl.ctrlWorkList ++ [item] ∧
    (¬ item.ZeroPeriod ↔ ok)

theorem decodeActionTime_none {aStr : String} {a : ActionTime}
    (h : decodeActionTime aStr none = some a) : a.action.isPeriod = false := by
  unfold decodeActionTime at h
  split_ifs at h
  obtain rfl := Option.some.inj h
  rfl

theorem timeActions_isPeriod : ∀ p ∈ timeActions,
    p.2.trigger.isPeriod = decide (p.1 ∈ periodActions) := by
  decide

theorem decodeActionTime_some {aStr tStr : String} {a : ActionTime}
    (h : decodeActionTime aStr (some tStr) = some a) :
    (a.action.isPeriod = true ∧ a.time = 0) ↔ ZeroTime aStr tStr := by
  unfold decodeActionTime at h
  split_ifs at h with hnow
  · obtain rfl := Option.some.inj h
    simp [ActionTime.now, ActionTrigger.isPeriod, ZeroTime, hnow, periodActions]
  · dsimp only at h
    unfold ZeroTime
    split at h
    · simp at h
    · rename_i time ht
      obtain ⟨t, hl, rfl⟩ := Option.map_eq_some_iff.mp h
      obtain ⟨l₁, l₂, hsplit, -⟩ := List.lookup_eq_some_iff.mp hl
      have hp := timeActions_isPeriod (aStr, t) (by rw [hsplit]; simp)
      simp only [ActionTime.later, hp, decide_eq_true_eq, ht, Option.some.injEq]

theorem schedules_command (ctl : Controller) (c : Command) :
    Schedules ctl (ctl.command c) ¬ (c.trigger.isPeriod = true ∧ c.count = 0) :=
  ⟨rfl, .new ctl.nextId c, rfl, Iff.rfl⟩

theorem Schedules.congr {ctl ctl' : Controller} {ok ok' : Prop} (h : Schedules ctl ctl' ok)
    (he : ok ↔ ok') : Schedules ctl ctl' ok' := by
  obtain ⟨hs, item, hi, hok⟩ := h
  exact ⟨hs, item, hi, hok.trans he⟩

variable {env : Environment} {ctl ctl' : Controller}

theorem progressCmd_ok {args : List String} (h : progressCmd env ctl args = (.ok, ctl')) :
    Schedules ctl ctl' ¬ ∃ action period, args = [action, period] ∧ period ≠ "clear" ∧
      env.count period = 0 := by
  unfold progressCmd at h
  split at h
  · rename_i action period
    split at h
    · simp at h
    · rename_i t type clear hl
      have hper : t.trigger.isPeriod = true := by
        obtain ⟨l₁, l₂, hsplit, -⟩ := List.lookup_eq_some_iff.mp hl
        have hall : ∀ p ∈ progressActions, p.2.1.trigger.isPeriod = true := by decide
        exact hall (action, t, type, clear) (by rw [hsplit]; simp)
      split_ifs at h with hclear
      · obtain rfl := (Prod.mk.inj h).2
        refine (schedules_command ..).congr ?_
        simp [ActionTime.now, ActionTime.command, ActionTrigger.isPeriod, hclear]
      · obtain rfl := (Prod.mk.inj h).2
        refine (schedules_command ..).congr ?_
        simp [Later.command, hper, hclear]
  · simp at h

theorem actionTimeCmd_ok {kind : WorkKind} {arg aStr : String} {tStr : Option String}
    (h : actionTimeCmd ctl kind arg aStr tStr = (.ok, ctl')) :
    Schedules ctl ctl' ¬ ∃ t, tStr = some t ∧ ZeroTime aStr t := by
  unfold actionTimeCmd at h
  split at h
  · rename_i a ha
    obtain rfl := (Prod.mk.inj h).2
    refine (schedules_command ..).congr (not_congr ?_)
    cases tStr with
    | none => simp [ActionTime.command, decodeActionTime_none ha]
    | some t => simp [ActionTime.command, decodeActionTime_some ha]
  · simp at h

theorem stopCmd_ok {usage : String} {kind : WorkKind} {args : List String}
    (h : stopCmd ctl usage kind args = (.ok, ctl')) :
    Schedules ctl ctl' ¬ ∃ action time, args = [action, time] ∧ ZeroTime action time := by
  unfold stopCmd at h
  split at h
  · exact (actionTimeCmd_ok h).congr (by simp)
  · exact (actionTimeCmd_ok h).congr (by simp)
  · simp at h

theorem threadCmd_ok {usage : String} {kind : Thread → WorkKind} {args : List String}
    (h : threadCmd env ctl usage kind args = (.ok, ctl')) :
    Schedules ctl ctl' ¬ ∃ desc action time, args = [desc, action, time] ∧
      ZeroTime action time := by
  unfold threadCmd at h
  split at h
  · split at h
    · simp at h
    · exact (actionTimeCmd_ok h).congr (by simp)
  · split at h
    · simp at h
    · exact (actionTimeCmd_ok h).congr (by simp)
  · simp at h

theorem skipThreadCmd_ok {args : List String} (h : skipThreadCmd env ctl args = (.ok, ctl')) :
    Schedules ctl ctl' ¬ ∃ desc insts markerID action time,
      args = [desc, insts, markerID, action, time] ∧ ZeroTime action time := by
  unfold skipThreadCmd at h
  split at h
  · split at h
    · simp at h
    · exact (actionTimeCmd_ok h).congr (by simp)
  · split at h
    · simp at h
    · exact (actionTimeCmd_ok h).congr (by simp)
  · simp at h

/-- Where a command reads a period, the argument there is a zero. -/
def PmScheduleZero (env : Environment) : List String → Prop
  | _ :: option :: args =>
    if option = "progress" then
      ∃ action period, args = [action, period] ∧ period ≠ "clear" ∧ env.count period = 0
    else if option = "stop" ∨ option = "exit" then
      ∃ action time, args = [action, time] ∧ ZeroTime action time
    else if option = "schedthread" ∨ option = "unschedthread" then
      ∃ desc action time, args = [desc, action, time] ∧ ZeroTime action time
    else if option = "skipthread" then
      ∃ desc insts markerID action time,
        args = [desc, insts, markerID, action, time] ∧ ZeroTime action time
    else False
  | _ => False

theorem pmScheduleCmd_ok {argv : List String} (h : pmScheduleCmd env ctl argv = (.ok, ctl')) :
    Schedules ctl ctl' ¬ PmScheduleZero env argv := by
  unfold pmScheduleCmd at h
  split at h
  · rename_i program option args
    unfold PmScheduleZero
    split_ifs at h with h1 h2 h3 h4 h5 h6 h7
    · simpa [h1] using progressCmd_ok h
    · split at h
      · obtain rfl := (Prod.mk.inj h).2
        refine (schedules_command ..).congr ?_
        simp [h2, ActionTime.now, ActionTime.command, ActionTrigger.isPeriod]
      · simp at h
    · simpa [h3] using stopCmd_ok h
    · simpa [h4] using stopCmd_ok h
    · simpa [h5] using threadCmd_ok h
    · simpa [h6] using threadCmd_ok h
    · simpa [h7] using skipThreadCmd_ok h
    · simp at h
  · simp at h

/-! ### Both -/

/-- What brings work items in: the command line, or a command of the workbench. -/
inductive Request
  | commandLine (args : List String)
  | pmSchedule (argv : List String)

/-- The controller after an accepted request. -/
def Request.accept (env : Environment) (ctl : Controller) : Request → Option Controller
  | commandLine args =>
    match parseEvents env 0 { toController := ctl } args with
    | .ok (true, st) => some st.toController
    | _ => none
  | pmSchedule argv =>
    match pmScheduleCmd env ctl argv with
    | (.ok, ctl) => some ctl
    | _ => none

/-- The request spells a zero where a period is read. -/
def Request.SpellsZero (env : Environment) : Request → Prop
  | commandLine args =>
    ∃ p ∈ flagOperands 0 args, p.1 ∈ periodFlags ∧ env.count p.2 = 0
  | pmSchedule argv => PmScheduleZero env argv

/-- After an accepted request nothing divides by zero, unless it spells a zero as a period. -/
theorem accept_safe_iff {r : Request} (h : r.accept env ctl = some ctl')
    (hctl : ctl.PeriodsNonzero) : ctl'.Safe ↔ ¬ r.SpellsZero env := by
  have key : ctl'.schedule = ctl.schedule ∧ ∃ new, ctl'.ctrlWorkList = ctl.ctrlWorkList ++ new ∧
      ((∀ x ∈ new, ¬ x.ZeroPeriod) ↔ ¬ r.SpellsZero env) := by
    cases r with
    | commandLine args =>
      simp only [Request.accept] at h
      split at h
      · rename_i st hst
        obtain rfl := Option.some.inj h
        exact (parseEvents_ok hst).congr (by simp [Request.SpellsZero])
      · simp at h
    | pmSchedule argv =>
      simp only [Request.accept] at h
      split at h
      · rename_i ctl'' hcmd
        obtain rfl := Option.some.inj h
        obtain ⟨hs, item, hi, hok⟩ := pmScheduleCmd_ok hcmd
        exact ⟨hs, [item], hi, by simpa [Request.SpellsZero] using hok⟩
      · simp at h
  obtain ⟨hs, new, hnew, hok⟩ := key
  rw [safe_iff (hs ▸ hctl.waiting), hnew, List.forall_mem_append, hok]
  exact and_iff_right hctl.queued

/-- Statistics every 1000 cycles and an exit at instruction 0. -/
theorem accept_safe_example : ∃ ctl', (Request.commandLine ["-sc", "1000", "-i", "0"]).accept
    tracedModel {} = some ctl' ∧ ctl'.Safe := by
  have hzero : ¬ ∃ p ∈ flagOperands 0 ["-sc", "1000", "-i", "0"],
    p.1 ∈ periodFlags ∧ tracedModel.count p.2 = 0 := by decide
  have hsafe := @accept_safe_iff tracedModel {} _ (.commandLine ["-sc", "1000", "-i", "0"]) rfl
    ⟨by simp, by simp⟩
  exact ⟨_, rfl, hsafe.mpr hzero⟩

/-- `-pc 0` is accepted. -/
theorem not_accept_safe : ¬ ∀ (env : Environment) (r : Request) (ctl ctl' : Controller),
    r.accept env ctl = some ctl' → ctl.PeriodsNonzero → ctl'.Safe := by
  intro h
  have hsafe := h tracedModel (.commandLine ["-pc", "0"]) {} _ rfl ⟨by simp, by simp⟩
  exact hsafe.period ⟨0, .progress .cycle "", .cyclePeriod, 0, 0⟩ (by decide) rfl rfl

end Awb.Classic
