import Awb.Classic.Events

/-! The documented event flags `-[cepst][se][cinm] <n>`. Each but two does what it spells: the
branches for `-een` and `-cen` test the spellings of `-eec` and `-cec` a second time. -/

namespace Awb.Classic

/-- The first character of an event flag. -/
inductive Subject
  | stripchart | events | profile | stats | trace
  deriving DecidableEq, Repr

/-- The third character of an event flag. -/
inductive Moment
  | cycle | inst | nanosecond | macroInst
  deriving DecidableEq, Repr

/-- The form `-[cepst][se][cinm]`. -/
structure EventForm where
  subject : Subject
  start : Bool
  moment : Moment
  deriving DecidableEq, Repr

/-- A flag of the form with its count. -/
structure EventFlag extends EventForm where
  n : UInt64
  deriving DecidableEq, Repr

def Subject.char : Subject → Char
  | stripchart => 'c'
  | events => 'e'
  | profile => 'p'
  | stats => 's'
  | trace => 't'

def Moment.char : Moment → Char
  | cycle => 'c'
  | inst => 'i'
  | nanosecond => 'n'
  | macroInst => 'm'

def Subject.kind (on : Bool) : Subject → WorkKind
  | stripchart => .stripchart on
  | events => .events on
  | profile => .profile on
  | stats => .stats on
  | trace => .debug on

def Moment.trigger : Moment → Later
  | cycle => .cycleOnce
  | inst => .instOnce
  | nanosecond => .nanosecondOnce
  | macroInst => .macroInstOnce

namespace EventForm

def spelling (f : EventForm) : String :=
  .ofList ['-', f.subject.char, if f.start then 's' else 'e', f.moment.char]

/-- The two forms without a branch of their own. -/
def Shadowed (f : EventForm) : Prop :=
  f.start = false ∧ f.moment = .nanosecond ∧ (f.subject = .events ∨ f.subject = .stripchart)

instance (f : EventForm) : Decidable f.Shadowed := inferInstanceAs (Decidable (_ ∧ _ ∧ _))

/-- The branch of the form: starting events is checked against the build. -/
def action (f : EventForm) : EventAction :=
  if f.subject = .events ∧ f.start = true then .startEvents f.moment.trigger
  else .command (f.subject.kind f.start) f.moment.trigger

end EventForm

namespace EventFlag

/-- The two arguments of the flag on the command line. -/
def args (f : EventFlag) : List String := [f.spelling, toString f.n.toNat]

/-- What the flag spells. -/
def command (f : EventFlag) : Command := f.moment.trigger.command (f.subject.kind f.start) f.n

end EventFlag

/-- The flags put their items on the work list, one for each flag and in their order. -/
def EventsScheduled (env : Environment) (depth : Nat) (v : Variables) (program : String)
    (st : EventState) (flags : List EventFlag) : Prop :=
  ∃ p st', partitionArgs env depth v (program :: flags.flatMap EventFlag.args) = .ok p ∧
    parseEvents env 0 st p.awbArgv = .ok (true, st') ∧
    st'.ctrlWorkList = st.ctrlWorkList ++
      flags.mapIdx fun i f => WorkItem.new (st.nextId + i) f.command

/-! ### Through the partition -/

/-- The arguments the partition acts on while it collects those of the events. -/
def variableFlags : List String :=
  ["--", "--feeder", "--system", "-cfg", "-h", "-t", "-tr", "-p", "-w", "-rps", "-tm", "-tms",
    "-listmasks", "-listnames", "-ppc", "-batch", "-awb", "-cf", "-wb", "-s", "-d", "-param",
    "-listparams"]

theorem parseVariables_none {env : Environment} {v : Variables} {arg : String}
    {rest : List String} (h : arg ∉ variableFlags) : parseVariables env v arg rest = .ok none := by
  simp only [variableFlags, List.mem_cons, List.not_mem_nil, or_false, not_or] at h
  simp [parseVariables, h]

theorem partitionOneArg_of_not_mem {env : Environment}
    {cfg : String → Partition → Except Abort Partition} {p : Partition} {arg : String}
    {rest : List String} (h : arg ∉ variableFlags) (hf : p.feederArgs = false)
    (hs : p.systemArgs = false) :
    partitionOneArg env cfg p arg rest = .ok (0, { p with awbArgv := p.awbArgv ++ [arg] }) := by
  have hv : parseVariables env p.toVariables arg rest = .ok none := parseVariables_none h
  simp only [variableFlags, List.mem_cons, List.not_mem_nil, or_false, not_or] at h
  simp [partitionOneArg, h, hf, hs, hv]

/-- Arguments that are no variables are kept in their order. -/
theorem partitionFrom_of_not_mem {env : Environment}
    {cfg : String → Partition → Except Abort Partition} {args : List String}
    (h : ∀ arg ∈ args, arg ∉ variableFlags) {p : Partition} (hf : p.feederArgs = false)
    (hs : p.systemArgs = false) :
    partitionFrom env cfg 0 p args = .ok { p with awbArgv := p.awbArgv ++ args } := by
  induction args generalizing p with
  | nil => simp [partitionFrom]
  | cons arg args ih =>
    rw [partitionFrom, partitionOneArg_of_not_mem (h arg (List.mem_cons_self ..)) hf hs]
    dsimp only
    rw [ih (fun a ha => h a (.tail _ ha)) (by exact hf) (by exact hs)]
    simp

theorem spelling_not_mem (f : EventForm) : f.spelling ∉ variableFlags := by
  obtain ⟨subject, start, moment⟩ := f
  cases subject <;> cases start <;> cases moment <;> decide

/-- A number is not an argument the partition acts on: those begin with a dash. -/
theorem toString_not_mem (n : Nat) : toString n ∉ variableFlags := by
  intro h
  have hdash : ∀ s ∈ variableFlags, '-' ∈ s.toList := by decide
  have hd : '-' ∈ Nat.toDigits 10 n := Nat.toList_repr (n := n) ▸ hdash _ h
  exact absurd (Nat.isDigit_of_mem_toDigits (by decide) (by decide) hd) (by decide)

theorem partitionArgs_flags (env : Environment) (depth : Nat) (v : Variables) (program : String)
    (flags : List EventFlag) :
    partitionArgs env depth v (program :: flags.flatMap EventFlag.args) =
      .ok { toVariables := v, awbArgv := flags.flatMap EventFlag.args } := by
  have h : ∀ arg ∈ flags.flatMap EventFlag.args, arg ∉ variableFlags := by
    intro arg ha
    obtain ⟨f, -, hf⟩ := List.mem_flatMap.mp ha
    rcases List.mem_cons.mp hf with rfl | hf
    · exact spelling_not_mem f.toEventForm
    · rw [List.mem_singleton.mp hf]
      exact toString_not_mem _
  rw [partitionArgs, List.drop_one, List.tail_cons, partitionFrom_of_not_mem h rfl rfl]
  rfl

/-! ### Through the chain -/

theorem applies_cons (a : EventAction) (n : String) (rest : List String) :
    a.applies (n :: rest) = true := by
  cases a <;> rfl

/-- A form that is not shadowed is found in the chain under its own spelling. -/
theorem find_spelling {f : EventForm} (hf : ¬ f.Shadowed) :
    (eventBranches.find? fun b => b.flag = f.spelling) = some ⟨f.spelling, f.action⟩ := by
  obtain ⟨subject, start, moment⟩ := f
  cases subject <;> cases start <;> cases moment <;>
    first | rfl | exact absurd (by decide) hf

theorem find_shadowed {f : EventForm} (hf : f.Shadowed) :
    (eventBranches.find? fun b => b.flag = f.spelling) = none := by
  obtain ⟨subject, start, moment⟩ := f
  obtain ⟨rfl, rfl, rfl | rfl⟩ := hf <;> rfl

variable {env : Environment}

theorem parseOneEvent_flag (htrace : env.builtWithTraceFlags = true)
    (hevents : env.runWithEventsOn = true) {f : EventFlag} (hf : ¬ f.Shadowed) {n : String}
    (hn : env.count n = f.n) (st : EventState) (rest : List String) :
    parseOneEvent env st f.spelling (n :: rest) = .ok (some 1, st.command f.command) := by
  have hrun : f.action.run env st (n :: rest) = .ok (1, st.command f.command) := by
    unfold EventForm.action EventFlag.command
    split_ifs with h
    · simp [EventAction.run, hevents, hn, h, Subject.kind]
    · simp [EventAction.run, hn]
  simp [parseOneEvent, htrace, applies_cons, find_spelling hf, hrun]

theorem parseOneEvent_shadowed (htrace : env.builtWithTraceFlags = true) {f : EventFlag}
    (hf : f.Shadowed) (st : EventState) (n : String) (rest : List String) :
    ∃ st', parseOneEvent env st f.spelling (n :: rest) = .ok (none, st') := by
  simp [parseOneEvent, htrace, applies_cons, find_shadowed hf]

/-- The flags are parsed one after the other, up to the first shadowed one. -/
theorem parseEvents_flags (htrace : env.builtWithTraceFlags = true)
    (hevents : env.runWithEventsOn = true) {flags : List EventFlag}
    (hn : ∀ f ∈ flags, env.count (toString f.n.toNat) = f.n) (st : EventState) :
    (∃ st', parseEvents env 0 st (flags.flatMap EventFlag.args) = .ok (true, st') ∧
      st'.ctrlWorkList = st.ctrlWorkList ++
        flags.mapIdx fun i f => WorkItem.new (st.nextId + i) f.command) ↔
      ∀ f ∈ flags, ¬ f.Shadowed := by
  induction flags generalizing st with
  | nil => simp [parseEvents]
  | cons f flags ih =>
    have hfn := hn f (List.mem_cons_self ..)
    have ih' := ih fun g hg => hn g (.tail _ hg)
    rw [List.flatMap_cons, EventFlag.args, List.cons_append, List.cons_append, List.nil_append,
      parseEvents, List.forall_mem_cons]
    by_cases hf : f.Shadowed
    · obtain ⟨st', hst⟩ := parseOneEvent_shadowed htrace hf st (toString f.n.toNat)
        (flags.flatMap EventFlag.args)
      rw [hst]
      simp [hf]
    · rw [parseOneEvent_flag htrace hevents hf hfn]
      simp only [parseEvents, hf, not_false_eq_true, true_and, ← ih' (st.command f.command)]
      have hlist : st.ctrlWorkList ++ (f :: flags).mapIdx (fun i g =>
          WorkItem.new (st.nextId + i) g.command) = (st.command f.command).ctrlWorkList ++
            flags.mapIdx fun i g => WorkItem.new ((st.command f.command).nextId + i) g.command := by
        simp [List.mapIdx_cons, EventState.command, Controller.command, WorkList.add,
          Nat.add_assoc, Nat.add_comm 1]
      rw [hlist]

/-- In a model built with tracing and events, a list of event flags is scheduled as it spells
exactly if it contains neither `-een` nor `-cen`. -/
theorem eventsScheduled_iff (depth : Nat) (v : Variables) (program : String) (st : EventState)
    (flags : List EventFlag) (htrace : env.builtWithTraceFlags = true)
    (hevents : env.runWithEventsOn = true)
    (hn : ∀ f ∈ flags, env.count (toString f.n.toNat) = f.n) :
    EventsScheduled env depth v program st flags ↔ ∀ f ∈ flags, ¬ f.Shadowed := by
  rw [← parseEvents_flags htrace hevents hn st, EventsScheduled]
  constructor
  · rintro ⟨p, st', hp, hst, hitems⟩
    rw [partitionArgs_flags, Except.ok.injEq] at hp
    subst hp
    exact ⟨st', hst, hitems⟩
  · rintro ⟨st', hst, hitems⟩
    exact ⟨_, st', partitionArgs_flags .., hst, hitems⟩

/-- A model with tracing and events, and the conversion of decimal numbers. -/
def tracedModel : Environment where
  atoiGeneral s := s.toList.foldl (fun n c => 10 * n + (c.toNat - '0'.toNat : Nat)) 0
  atoiGeneralUnsigned _ := 0
  scanPointer _ := none
  findTraceOpt _ := 0
  setParam _ _ := false
  builtWithTraceFlags := true
  runWithEventsOn := true
  configFile _ _ := none

/-- The variables of a model before its command line is read. -/
def noVariables : Variables :=
  ⟨false, false, false, false, 0, false, 0, none, none, none, false, [], [], []⟩

theorem eventsScheduled_example : EventsScheduled tracedModel 0 noVariables "asim" {}
    [⟨⟨.trace, true, .cycle⟩, 100⟩, ⟨⟨.stripchart, false, .macroInst⟩, 20⟩] :=
  (eventsScheduled_iff 0 noVariables "asim" {} _ rfl rfl (by decide)).mpr (by decide)

/-- `-een 5` is an unknown flag. -/
theorem een_not_scheduled : ¬ ∀ (env : Environment) (depth : Nat) (v : Variables)
    (program : String) (st : EventState) (flags : List EventFlag),
    env.builtWithTraceFlags = true → env.runWithEventsOn = true →
      (∀ f ∈ flags, env.count (toString f.n.toNat) = f.n) →
        EventsScheduled env depth v program st flags := by
  intro h
  obtain ⟨p, st', hp, hst, -⟩ := h tracedModel 0 noVariables "asim" {}
    [⟨⟨.events, false, .nanosecond⟩, 5⟩] rfl rfl (by decide)
  rw [partitionArgs_flags, Except.ok.injEq] at hp
  subst hp
  have hfalse : parseEvents tracedModel 0 {} ["-een", "5"] =
      .ok (false, { warnings := ["Unknown flag, -een\n"] }) := by decide
  rw [show List.flatMap EventFlag.args _ = ["-een", "5"] by decide, hfalse] at hst
  simp at hst

end Awb.Classic
