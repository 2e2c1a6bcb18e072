import Awb.Classic.Queues
import Awb.Workbench.Machine

/-! Whatever the workbench does, it changes the controller by commands only: its steps are runs of
the scheduler loop in which commands arrive. -/

namespace Awb.Workbench
open Awb.Classic

/-- The progress on which the workbench acts. -/
def actsOn : ProgressType → Bool
  | .stop | .threadBegin | .threadEnd => true
  | _ => false

/-- `PmSchedule progress` asks for progress of the counters only. -/
def Plain (kind : WorkKind) : Prop := ∀ type args, kind = .progress type args → actsOn type = false

section
variable {env : Environment} {ctl ctl' : Controller}

theorem actionTimeCmd_command {kind : WorkKind} {arg aStr : String} {tStr : Option String}
    (h : actionTimeCmd ctl kind arg aStr tStr = (.ok, ctl')) :
    ∃ c, ctl' = ctl.command c ∧ c.kind = kind := by
  unfold actionTimeCmd at h
  split at h
  · exact ⟨_, (Prod.mk.inj h).2.symm, rfl⟩
  · cases h

theorem threadCmd_command {usage : String} {kind : Thread → WorkKind} {args : List String}
    (h : threadCmd env ctl usage kind args = (.ok, ctl')) :
    ∃ c, ctl' = ctl.command c ∧ ∃ thread, c.kind = kind thread := by
  unfold threadCmd at h
  split at h
  · split at h
    · cases h
    · obtain ⟨c, hc, hkind⟩ := actionTimeCmd_command h
      exact ⟨c, hc, _, hkind⟩
  · split at h
    · cases h
    · obtain ⟨c, hc, hkind⟩ := actionTimeCmd_command h
      exact ⟨c, hc, _, hkind⟩
  · cases h

theorem skipThreadCmd_command {args : List String}
    (h : skipThreadCmd env ctl args = (.ok, ctl')) : ∃ c, ctl' = ctl.command c ∧
      ∃ thread insts markerID, c.kind = .thdSkip thread insts markerID := by
  unfold skipThreadCmd at h
  split at h
  · split at h
    · cases h
    · obtain ⟨c, hc, hkind⟩ := actionTimeCmd_command h
      exact ⟨c, hc, _, _, _, hkind⟩
  · split at h
    · cases h
    · obtain ⟨c, hc, hkind⟩ := actionTimeCmd_command h
      exact ⟨c, hc, _, _, _, hkind⟩
  · cases h

theorem progressCmd_command {args : List String} (h : progressCmd env ctl args = (.ok, ctl')) :
    ∃ c, ctl' = ctl.command c ∧
      ∃ type args, c.kind = .progress type args ∧ actsOn type = false := by
  have hactions : ∀ r ∈ progressActions, actsOn r.2.2.1 = false ∧ actsOn r.2.2.2 = false := by
    decide
  unfold progressCmd at h
  split at h
  · split at h
    · cases h
    · rename_i t type clear hlookup
      obtain ⟨l₁, l₂, hmem, -⟩ := List.lookup_eq_some_iff.mp hlookup
      obtain ⟨htype, hclear⟩ := hactions _ (hmem ▸ List.mem_append_right l₁ List.mem_cons_self)
      split_ifs at h
      · exact ⟨_, (Prod.mk.inj h).2.symm, _, _, rfl, hclear⟩
      · exact ⟨_, (Prod.mk.inj h).2.symm, _, _, rfl, htype⟩
  · cases h

end

namespace Bench
variable {host : Host} {b b' : Bench} {uid trigger : String} {time : Nat}

theorem pmSchedule_ok {args : List String} {P : Command → Prop}
    (h : b.pmSchedule host args = .ok b')
    (hcmd : ∀ ctl', pmScheduleCmd host.toEnvironment b.loop.toController ("PmSchedule" :: args) =
      (.ok, ctl') → ∃ c, ctl' = b.loop.toController.command c ∧ P c) :
    ∃ c, b' = b.command c ∧ P c := by
  unfold pmSchedule at h
  split at h
  · rename_i ctl' hctl
    obtain ⟨c, rfl, hc⟩ := hcmd ctl' hctl
    exact ⟨c, (Except.ok.inj h).symm, hc⟩
  · cases h

/-- Commands that schedule or unschedule a thread, or skip on it. -/
inductive ActsOnThread (c : Command) : Prop
  | sched {thread : Thread} : c.kind = .thdSched thread → ActsOnThread c
  | unsched {thread : Thread} : c.kind = .thdUnsched thread → ActsOnThread c
  | skip {thread : Option Thread} {insts : UInt64} {markerID : Int} :
      c.kind = .thdSkip thread insts markerID → ActsOnThread c

/-- Some commands for threads went to the controller. -/
def QueuedActions (b b' : Bench) : Prop := ∃ cs, Queued b cs b' ∧ ∀ c ∈ cs, ActsOnThread c

theorem QueuedActions.refl (b : Bench) : QueuedActions b b := ⟨[], Queued.refl b, by simp⟩

theorem QueuedActions.trans {b'' : Bench} (h : QueuedActions b b') (h' : QueuedActions b' b'') :
    QueuedActions b b'' := by
  obtain ⟨cs, hcs, hacts⟩ := h
  obtain ⟨cs', hcs', hacts'⟩ := h'
  refine ⟨cs ++ cs', hcs.trans hcs', ?_⟩
  intro c hc
  rcases List.mem_append.mp hc with hc | hc
  · exact hacts c hc
  · exact hacts' c hc

theorem queuedActions_command {c : Command} (hc : ActsOnThread c) : QueuedActions b (b.command c) :=
  ⟨[c], queued_command b c, by simpa using hc⟩

theorem pmSchedule_actions {option : String} {args : List String}
    (hoption : option = "schedthread" ∨ option = "unschedthread" ∨ option = "skipthread")
    (h : b.pmSchedule host (option :: args) = .ok b') : QueuedActions b b' := by
  obtain ⟨c, rfl, hc⟩ : ∃ c, b' = b.command c ∧ ActsOnThread c := by
    apply pmSchedule_ok h
    intro ctl' hctl
    rcases hoption with rfl | rfl | rfl
    · obtain ⟨c, hc, thread, hkind⟩ := threadCmd_command hctl
      exact ⟨c, hc, .sched hkind⟩
    · obtain ⟨c, hc, thread, hkind⟩ := threadCmd_command hctl
      exact ⟨c, hc, .unsched hkind⟩
    · obtain ⟨c, hc, thread, insts, markerID, hkind⟩ := skipThreadCmd_command hctl
      exact ⟨c, hc, .skip hkind⟩
  exact queuedActions_command hc

theorem moveThreads_actions {name option : String} {source target : ThdState}
    (hoption : option = "schedthread" ∨ option = "unschedthread")
    (h : b.moveThreads host name option source target uid trigger time = .ok b') :
    QueuedActions b b' := by
  have hone : ∀ {b b' : Bench} {thd : Thd},
      b.moveThread host option target trigger time thd = .ok b' → QueuedActions b b' := by
    intro b b' thd h
    unfold moveThread at h
    obtain ⟨b₁, hb₁, hb'⟩ := Except.bind_eq_ok.mp h
    obtain rfl := Except.ok.inj hb'
    obtain ⟨cs, hcs, hacts⟩ := pmSchedule_actions (by tauto) hb₁
    exact ⟨cs, ⟨hcs.loop, hcs.sysBreak, hcs.pendingProgress, hcs.bmCmds, hcs.bmStop,
      hcs.processing⟩, hacts⟩
  unfold moveThreads at h
  split_ifs at h
  · generalize b.names host = ns at h
    induction ns generalizing b with
    | nil =>
      obtain rfl := Except.ok.inj h
      exact QueuedActions.refl b
    | cons tn ns ih =>
      rw [List.foldlM_cons] at h
      obtain ⟨b₁, hb₁, hrest⟩ := Except.bind_eq_ok.mp h
      have hfirst : QueuedActions b b₁ := by
        split at hb₁
        · split_ifs at hb₁
          · exact hone hb₁
          · obtain rfl := Except.ok.inj hb₁
            exact QueuedActions.refl b
        · cases hb₁
      exact hfirst.trans (ih hrest)
  · split at h
    · exact hone h
    · cases h

theorem skipThread_actions {inst : Nat} {markerID : Int}
    (h : b.skipThread host uid inst markerID trigger time = .ok b') : QueuedActions b b' := by
  unfold skipThread at h
  simp only at h
  split_ifs at h
  · exact pmSchedule_actions (by simp) h
  · obtain rfl := Except.ok.inj h
    exact QueuedActions.refl b
  · split at h
    · exact pmSchedule_actions (by simp) h
    · cases h

theorem changeThreadState_actions {state : ThdState}
    (h : b.changeThreadState uid state = .ok b') : QueuedActions b b' := by
  unfold changeThreadState at h
  split_ifs at h
  · obtain rfl := Except.ok.inj h
    exact ⟨[], ⟨rfl, by simp, rfl, rfl, rfl, rfl⟩, by simp⟩
  · split at h
    · obtain rfl := Except.ok.inj h
      exact ⟨[], ⟨rfl, by simp [setThdState], rfl, rfl, rfl, rfl⟩, by simp⟩
    · cases h

theorem awbSkip_actions {inst : Nat} {markerID : Int}
    (h : b.awbSkip host uid inst markerID = .ok b') : QueuedActions b b' := by
  unfold awbSkip at h
  obtain ⟨b₁, hb₁, h⟩ := Except.bind_eq_ok.mp h
  obtain ⟨b₂, hb₂, h⟩ := Except.bind_eq_ok.mp h
  exact ((moveThreads_actions (by simp) hb₁).trans (skipThread_actions hb₂)).trans
    (moveThreads_actions (by simp) h)

theorem awbNewSkip_actions {inst : Nat} {markerID : Int}
    (h : b.awbNewSkip host uid inst markerID = .ok b') : QueuedActions b b' := by
  unfold awbNewSkip at h
  obtain ⟨b₁, hb₁, h⟩ := Except.bind_eq_ok.mp h
  obtain ⟨b₂, hb₂, h⟩ := Except.bind_eq_ok.mp h
  exact ((changeThreadState_actions hb₁).trans (skipThread_actions hb₂)).trans
    (changeThreadState_actions h)

theorem awbRun_eq (type : RunType) (amount : Nat) : b.awbRun host type amount =
    .ok (({ b.command (type.later.command .stop (scanned (b.pmControl type + amount))) with
      bmStop := .run type (b.pmControl type + amount) } : Bench).command startCommand) := by
  unfold awbRun
  change (b.pmSchedule host ["stop", type.stopAction, toString (b.pmControl type + amount)] >>=
    _) = _
  rw [pmSchedule_stop]
  change Bench.pmSchedule host ["start"] _ = _
  exact pmSchedule_start

theorem awbExit_eq : b.awbExit host = .ok ((b.command exitCommand).command startCommand) := by
  unfold awbExit
  rw [pmSchedule_exit]
  change Bench.pmSchedule host ["start"] _ = _
  exact pmSchedule_start

theorem awbProgress_ok {type period : String}
    (h : b.pmSchedule host ["progress", type, period] = .ok b') :
    ∃ c, b' = b.command c ∧ ∃ type args, c.kind = .progress type args ∧ actsOn type = false := by
  apply pmSchedule_ok h
  intro ctl' hctl
  change progressCmd host.toEnvironment b.loop.toController [type, period] = (.ok, ctl') at hctl
  exact progressCmd_command hctl

theorem awbStats_ok {onoffdump : String} (h : b.awbStats onoffdump = .ok b') : b' = b := by
  unfold awbStats at h
  split_ifs at h
  exact (Except.ok.inj h).symm

theorem awbEvents_ok {onofffilename : String} (h : b.awbEvents onofffilename = .ok b') :
    b' = b := by
  unfold awbEvents at h
  split_ifs at h
  exact (Except.ok.inj h).symm

/-- The controller has received commands. -/
def Commanded (b b' : Bench) : Prop :=
  ∃ cs : List Command, b'.loop = cs.foldl LoopState.arrive b.loop ∧ ∀ c ∈ cs, Plain c.kind

theorem Commanded.of_loop_eq (h : b'.loop = b.loop) : Commanded b b' := ⟨[], h, by simp⟩

theorem Commanded.trans {b'' : Bench} (h : Commanded b b') (h' : Commanded b' b'') :
    Commanded b b'' := by
  obtain ⟨cs, hcs, hplain⟩ := h
  obtain ⟨cs', hcs', hplain'⟩ := h'
  refine ⟨cs ++ cs', ?_, ?_⟩
  · rw [List.foldl_append, hcs', hcs]
  · intro c hc
    rcases List.mem_append.mp hc with hc | hc
    · exact hplain c hc
    · exact hplain' c hc

theorem commanded_command {c : Command} (hc : Plain c.kind) : Commanded b (b.command c) :=
  ⟨[c], rfl, by simpa using hc⟩

theorem commanded_exit (b : Bench) :
    Commanded b ((b.command exitCommand).command startCommand) := by
  refine ⟨[exitCommand, startCommand], rfl, ?_⟩
  intro c hc type args hkind
  rcases List.mem_cons.mp hc with rfl | hc
  · cases hkind
  · obtain rfl := List.mem_singleton.mp hc
    cases hkind

theorem commanded_run (b : Bench) (type : RunType) (n : Nat) (stop : BmStop) :
    Commanded b (({ b.command (type.later.command .stop (scanned n)) with
      bmStop := stop } : Bench).command startCommand) := by
  refine ⟨[_, startCommand], rfl, ?_⟩
  intro c hc type args hkind
  rcases List.mem_cons.mp hc with rfl | hc
  · cases hkind
  · obtain rfl := List.mem_singleton.mp hc
    cases hkind

theorem QueuedActions.commanded (h : QueuedActions b b') : Commanded b b' := by
  obtain ⟨cs, hcs, hacts⟩ := h
  refine ⟨cs, hcs.loop, ?_⟩
  intro c hc type args hkind
  cases hacts c hc with
  | sched h => cases hkind.symm.trans h
  | unsched h => cases hkind.symm.trans h
  | skip h => cases hkind.symm.trans h

theorem eval_commanded {cmd : Cmd} (h : b.eval host cmd = .ok b') : Commanded b b' := by
  cases cmd with
  | awbRun type amount =>
    obtain rfl := Except.ok.inj ((awbRun_eq type amount).symm.trans h)
    exact commanded_run b type _ _
  | awbExit =>
    obtain rfl := Except.ok.inj (awbExit_eq.symm.trans h)
    exact commanded_exit b
  | awbSkip uid inst markerID => exact (awbSkip_actions h).commanded
  | awbNewSkip uid inst markerID => exact (awbNewSkip_actions h).commanded
  | awbBeginDrain | awbEndDrain =>
    obtain rfl := Except.ok.inj h
    exact Commanded.of_loop_eq rfl
  | awbSample warmup run skip iter =>
    obtain rfl := Except.ok.inj h
    apply Commanded.of_loop_eq
    unfold awbSample
    split_ifs <;> rfl
  | awbProgress type period =>
    obtain ⟨c, rfl, type', args', hkind, hacts⟩ := awbProgress_ok h
    apply commanded_command
    intro type args hkind'
    obtain ⟨rfl, -⟩ := WorkKind.progress.inj (hkind.symm.trans hkind')
    exact hacts
  | awbStats onoffdump file =>
    obtain rfl := awbStats_ok h
    exact Commanded.of_loop_eq rfl
  | awbEvents onofffilename file =>
    obtain rfl := awbEvents_ok h
    exact Commanded.of_loop_eq rfl

theorem threadBegin_ok {desc : String} (h : b.threadBegin host uid desc = .ok b') :
    b.thd? uid = none ∧ QueuedActions b b' ∧
      { b with threads := b.threads ++ [Thd.mk uid desc .idle] }.scheduleThread host uid "now" 0 =
        .ok b' := by
  unfold threadBegin at h
  split at h
  · cases h
  · rename_i hnone
    obtain ⟨cs, hcs, hacts⟩ := moveThreads_actions (by simp) h
    exact ⟨hnone, ⟨cs, ⟨hcs.loop, hcs.sysBreak, hcs.pendingProgress, hcs.bmCmds, hcs.bmStop,
      hcs.processing⟩, hacts⟩, h⟩

/-- The end of the last thread is the exit. -/
theorem threadEnd_ok (h : b.threadEnd host uid = .ok b') : ∃ b₁, (b.thd? uid).isSome = true ∧
    b.unscheduleThread host uid "now" 0 = .ok b₁ ∧ QueuedActions b b₁ ∧
    ∃ b₂ : Bench, b₂ = { b₁ with threads := b₁.threads.filter fun thd => thd.uid ≠ uid } ∧
      ((b₂.threads ≠ [] ∧ b' = b₂) ∨
        (b₂.threads = [] ∧ b' = (b₂.command exitCommand).command startCommand)) := by
  unfold threadEnd at h
  split at h
  · cases h
  · rename_i thd hthd
    obtain ⟨b₁, hb₁, h⟩ := Except.bind_eq_ok.mp h
    refine ⟨b₁, by simp [hthd], hb₁, moveThreads_actions (by simp) hb₁, _, rfl, ?_⟩
    simp only at h
    split_ifs at h with hlast
    · rw [awbExit_eq] at h
      exact Or.inr ⟨hlast, (Except.ok.inj h).symm⟩
    · exact Or.inl ⟨hlast, (Except.ok.inj h).symm⟩

theorem checkBmCmds_ok (h : b.checkBmCmds = .ok b') : b' = b ∨ b' = b.processBmCmds := by
  unfold checkBmCmds at h
  split at h
  · cases h
  · split_ifs at h
    · exact Or.inr (Except.ok.inj h).symm
    · exact Or.inl (Except.ok.inj h).symm
  · split_ifs at h
    · exact Or.inr (Except.ok.inj h).symm
    · exact Or.inl (Except.ok.inj h).symm
  · split_ifs at h
    · exact Or.inr (Except.ok.inj h).symm
    · exact Or.inl (Except.ok.inj h).symm
  · exact Or.inr (Except.ok.inj h).symm

theorem batchProgress_commanded {p : Progress} (h : b.batchProgress host p = .ok b') :
    Commanded b b' := by
  unfold batchProgress at h
  split at h
  case h_6 =>
    rcases checkBmCmds_ok h with rfl | rfl
    · exact Commanded.of_loop_eq rfl
    · exact Commanded.of_loop_eq rfl
  case h_7 => exact (threadBegin_ok h).2.1.commanded
  case h_8 =>
    obtain ⟨b₁, -, -, hactions, b₂, rfl, ⟨-, rfl⟩ | ⟨-, rfl⟩⟩ := threadEnd_ok h
    · exact hactions.commanded
    · exact hactions.commanded.trans (commanded_exit _)
  case h_12 => cases h
  all_goals
    obtain rfl := Except.ok.inj h
    exact Commanded.of_loop_eq rfl

theorem commanded_notification {kind : WorkKind} (h : isNotification kind = true) :
    Commanded b (b.command (notification kind)) := by
  apply commanded_command
  rintro type args rfl
  cases h

end Bench

/-- Commands are arrivals of the scheduler loop. -/
theorem Bench.Commanded.run {b b' : Bench} (h : Bench.Commanded b b') :
    ∃ tr, Lts.Run Awb.Classic.Step b.loop tr b'.loop := by
  obtain ⟨cs, hcs, -⟩ := h
  rw [hcs]
  clear hcs
  generalize b.loop = loop
  induction cs generalizing loop with
  | nil => exact ⟨[], .nil⟩
  | cons c cs ih =>
    obtain ⟨tr, hrun⟩ := ih (loop.arrive c)
    exact ⟨_ :: tr, .cons (.arrive c) hrun⟩

variable {host : Host} {b b' : Bench} {l : Label} {script : List Cmd} {tr : List Label}

/-- Every step of the workbench with the loop is a run of the loop. -/
theorem Step.refines (h : Step host b l b') :
    ∃ tr, Lts.Run Awb.Classic.Step b.loop tr b'.loop := by
  cases h.move with
  | notify hkind => exact ⟨_, .single (.arrive _)⟩
  | eval _ _ _ heval => exact (Bench.eval_commanded heval).run
  | event _ _ _ hevent => exact (Bench.batchProgress_commanded hevent).run
  | quiet _ _ hstep => exact ⟨_, .single hstep⟩
  | drained hstep => exact ⟨_, .single hstep⟩
  | process _ hstep => exact ⟨_, .single hstep⟩
  | execute _ _ hstep => exact ⟨_, .single hstep⟩

theorem Started.commanded (h : Started host script b) :
    ∃ current system, Bench.Commanded { loop := start current system } b := by
  obtain ⟨current, system, kinds, hkinds, hinit⟩ := h
  have hnotified : ∀ (kinds : List WorkKind) (b : Bench),
      (∀ kind ∈ kinds, isNotification kind = true) →
      Bench.Commanded b ((kinds.map Bench.notification).foldl Bench.command b) := by
    intro kinds
    induction kinds with
    | nil => exact fun b _ => .of_loop_eq rfl
    | cons kind kinds ih =>
      intro b hkinds
      have hfirst := Bench.commanded_notification (b := b) (hkinds kind List.mem_cons_self)
      exact hfirst.trans (ih _ fun k hk => hkinds k (List.mem_cons_of_mem kind hk))
  refine ⟨current, system, (hnotified kinds _ hkinds).trans ?_⟩
  unfold Bench.awbInit at hinit
  split_ifs at hinit
  · rw [Bench.pmSchedule_start] at hinit
    obtain rfl := Except.ok.inj hinit
    exact Bench.commanded_command fun _ _ hkind => by cases hkind
  · rw [Bench.awbRun_eq] at hinit
    obtain rfl := Except.ok.inj hinit
    exact Bench.commanded_run _ _ _ _

theorem Started.reachable (h : Started host script b) : Reachable b.loop := by
  obtain ⟨current, system, hcommanded⟩ := h.commanded
  obtain ⟨tr, hrun⟩ := hcommanded.run
  exact ⟨current, system, tr, hrun⟩

theorem reachable_of_run (hb : Started host script b) (h : Lts.Run (Step host) b tr b') :
    Reachable b'.loop := by
  apply h.invariant fun _ b => Reachable b.loop
  · exact hb.reachable
  · intro _ t _ u ht hstep
    obtain ⟨tr, hrun⟩ := hstep.refines
    exact ht.run hrun

/-- What the controller holds after commands. -/
theorem Bench.Commanded.plain (h : Bench.Commanded b b')
    (hplain : ∀ x, b.loop.Holds x → Plain x.kind) : ∀ x, b'.loop.Holds x → Plain x.kind := by
  obtain ⟨cs, hcs, hkinds⟩ := h
  intro x hx
  rw [hcs] at hx
  rcases holds_commands hx with hx | ⟨c, hc, hkind⟩
  · exact hplain x hx
  · exact hkind ▸ hkinds c hc

theorem Step.plain (h : Step host b l b') (hplain : ∀ x, b.loop.Holds x → Plain x.kind) :
    ∀ x, b'.loop.Holds x → Plain x.kind := by
  have hloop : ∀ {l : Awb.Classic.Label} {loop : LoopState}, l.arrived = [] →
      Awb.Classic.Step b.loop l loop → ∀ x, loop.Holds x → Plain x.kind := by
    intro l loop hnone hstep x hx
    rcases hstep.move.kind_of_holds hx with ⟨y, hy, hkind⟩ | ⟨y, hy, -⟩
    · exact hkind ▸ hplain y hy
    · rw [hnone] at hy
      cases hy
  cases h.move with
  | notify hkind => exact (Bench.commanded_notification hkind).plain hplain
  | @eval cmd rest b'' _ _ _ heval =>
    exact (Bench.eval_commanded heval).plain (b := { b with bmCmds := rest }) hplain
  | @event p rest b' _ _ _ hevent =>
    exact (Bench.batchProgress_commanded hevent).plain (b := { b with pendingProgress := rest })
      hplain
  | @quiet l loop hquiet _ hstep =>
    refine hloop ?_ hstep
    cases l with
    | arrive item => cases hquiet
    | _ => rfl
  | drained hstep => exact hloop rfl hstep
  | process _ hstep => exact hloop rfl hstep
  | execute _ _ hstep => exact hloop rfl hstep

theorem plain_of_run (hb : Started host script b) (h : Lts.Run (Step host) b tr b') :
    ∀ x, b'.loop.Holds x → Plain x.kind := by
  apply h.invariant fun _ b => ∀ x, b.loop.Holds x → Plain x.kind
  · obtain ⟨current, system, hcommanded⟩ := hb.commanded
    apply hcommanded.plain
    rintro x (hx | ⟨k, hx⟩)
    · cases hx
    · simp [start] at hx
  · intro _ t _ u ht hstep
    exact hstep.plain ht

end Awb.Workbench
