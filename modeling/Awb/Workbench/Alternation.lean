import Awb.Workbench.Actions

/-! The law of the actions on one thread. The items that wait for the thread are one queue, so
what the workbench believes of the thread holds when this queue has been executed. -/

namespace Awb.Workbench
open Awb.Classic

/-- What an observer of the steps knows of one thread. -/
structure Watch where
  alive : Bool := false
  scheduled : Bool := false
  deriving DecidableEq, Repr

namespace Watch

/-- An action is executed. With `late`, a scheduled thread may be unscheduled after its end. -/
def act (late : Bool) (w : Watch) : Act → Option Watch
  | .sched => if w.alive && !w.scheduled then some { w with scheduled := true } else none
  | .unsched =>
    if w.scheduled && (w.alive || late) then some { w with scheduled := false } else none
  | .skip => if w.alive then some w else none

def observe (late : Bool) (host : Host) (thread : Thread) (w : Watch) : Label → Option Watch
  | .event p =>
    if p.args.getD 0 "" = host.uid thread then
      match p.type with
      | .threadBegin => some { w with alive := true }
      | .threadEnd => some { w with alive := false }
      | _ => some w
    else some w
  | .loop (.process item _ _) =>
    match actFor thread item.kind with
    | some a => w.act late a
    | none => some w
  | _ => some w

end Watch

/-- The actions on a thread alternate: it is scheduled only while it lives and is not scheduled,
unscheduled only while it is scheduled and skipped only while it lives. -/
def Alternates (late : Bool) (host : Host) (thread : Thread) (tr : List Label) : Prop :=
  (tr.foldlM (Watch.observe late host thread) {}).isSome = true

instance (late : Bool) (host : Host) (thread : Thread) (tr : List Label) :
    Decidable (Alternates late host thread tr) := inferInstanceAs (Decidable (_ = true))

/-- The items for the threads that a command names. -/
def touches (host : Host) (uid : String) : WorkKind → Bool
  | .thdSched thread | .thdUnsched thread | .thdSkip (some thread) .. =>
    uid = "all" || uid = host.uid thread
  | _ => false

/-- A thread is skipped when the cycle of every action that waits for it has come, and ends when
no action waits for it. -/
def Paced (host : Host) (b : Bench) : Label → Prop
  | .eval (.awbSkip uid _ _) _ | .eval (.awbNewSkip uid _ _) _ =>
    ∀ x ∈ b.loop.waiting (touches host uid), x.time ≤ b.pmControl .cycle
  | .event p => p.type = .threadEnd → b.loop.waiting (touches host (p.args.getD 0 "")) = []
  | _ => True

instance (host : Host) (b : Bench) (l : Label) : Decidable (Paced host b l) :=
  match l with
  | .notify _ | .loop _ => inferInstanceAs (Decidable True)
  | .event p => inferInstanceAs (Decidable (p.type = .threadEnd →
      b.loop.waiting (touches host (p.args.getD 0 "")) = []))
  | .eval cmd _ =>
    match cmd with
    | .awbSkip uid _ _ | .awbNewSkip uid _ _ => inferInstanceAs (Decidable
        (∀ x ∈ b.loop.waiting (touches host uid), x.time ≤ b.pmControl .cycle))
    | .awbRun .. | .awbExit | .awbBeginDrain | .awbEndDrain | .awbSample .. | .awbProgress ..
    | .awbStats .. | .awbEvents .. => inferInstanceAs (Decidable True)

variable {host : Host} {b b' : Bench} {thread : Thread} {w : Watch}

theorem touches_of_isFor {uid : String} {kind : WorkKind} (h : isFor thread kind = true)
    (huid : uid = "all" ∨ uid = host.uid thread) : touches host uid kind = true := by
  unfold isFor actFor at h
  split at h
  · split_ifs at h with heq
    · subst heq
      simpa [touches] using huid
    · cases h
  · split_ifs at h with heq
    · subst heq
      simpa [touches] using huid
    · cases h
  · split_ifs at h with heq
    · subst heq
      simpa [touches] using huid
    · cases h
  · cases h

/-- What the actions that wait make of a thread. -/
def play : Bool → Act → Option Bool
  | false, .sched => some true
  | true, .unsched => some false
  | scheduled, .skip => some scheduled
  | _, _ => none

/-- The actions that wait for a thread. -/
def Bench.waitingActs (thread : Thread) (b : Bench) : List Act :=
  acts thread ((b.loop.waiting (isFor thread)).map WorkItem.kind)

/-- The invariant of one thread: once what waits has been executed, it is scheduled if it lives,
and for a thread that has ended only its last action waits. -/
structure Follows (host : Host) (thread : Thread) (w : Watch) (b : Bench) : Prop where
  queue : Queue (isFor thread) b.loop
  play : (b.waitingActs thread).foldlM play w.scheduled = some w.alive
  ended : w.alive = false → ∀ x ∈ b.loop.waiting (isFor thread),
    actFor thread x.kind = some .unsched ∧ x.time = 0
  thd? : b.thd? (host.uid thread) =
    if w.alive then some ⟨host.uid thread, host.desc thread, .running⟩ else none

/-- The invariant of the workbench. -/
structure Tracked (host : Host) (tr : List Label) (b : Bench) : Prop where
  known : Bench.Known host b
  beginArgs : ∀ p ∈ b.pendingProgress, p.type = .threadBegin →
    ∃ thread, p.args = [host.uid thread, host.desc thread]
  follows : ∀ thread, ∃ w, tr.foldlM (Watch.observe true host thread) {} = some w ∧
    Follows host thread w b

theorem foldlM_append_singleton {α β : Type} {f : β → α → Option β} {l : List α} {s t : β} {a : α}
    (h : l.foldlM f s = some t) : (l ++ [a]).foldlM f s = f t a := by
  rw [List.foldlM_append, h]
  change (f t a >>= pure) = f t a
  exact bind_pure _

/-- Commands bring new actions behind those that wait. -/
theorem waitingActs_commands {cs : List Command}
    (hloop : b'.loop = cs.foldl LoopState.arrive b.loop) :
    b'.waitingActs thread = b.waitingActs thread ++ acts thread (cs.map Command.kind) := by
  rw [Bench.waitingActs, hloop, waiting_commands, List.map_append, acts_append, acts_filter,
    items_kinds]
  rfl

/-- A new item that waits is of a command with an action. -/
theorem waiting_of_commands {cs : List Command}
    (hloop : b'.loop = cs.foldl LoopState.arrive b.loop) {x : WorkItem}
    (hx : x ∈ b'.loop.waiting (isFor thread)) : x ∈ b.loop.waiting (isFor thread) ∨
      ∃ c ∈ cs, x.time = c.count.toNat ∧ ∃ a ∈ acts thread (cs.map Command.kind),
        actFor thread x.kind = some a := by
  rw [hloop, waiting_commands] at hx
  rcases List.mem_append.mp hx with hx | hx
  · exact Or.inl hx
  · obtain ⟨hx, hisFor⟩ := List.mem_filter.mp hx
    obtain ⟨c, hc, hkind, -, htime⟩ := mem_items hx
    obtain ⟨a, ha⟩ := Option.isSome_iff_exists.mp hisFor
    refine Or.inr ⟨c, hc, htime, a, ?_, ha⟩
    exact List.mem_filterMap.mpr ⟨c.kind, List.mem_map_of_mem hc, hkind ▸ ha⟩

/-- Commands of other threads change nothing for a thread. -/
theorem Follows.other (h : Follows host thread w b) {cs : List Command}
    (hloop : b'.loop = cs.foldl LoopState.arrive b.loop)
    (hacts : acts thread (cs.map Command.kind) = [])
    (hthd : b'.thd? (host.uid thread) = b.thd? (host.uid thread)) : Follows host thread w b' := by
  have hnone : ∀ c ∈ cs, isFor thread c.kind = false := by
    intro c hc
    by_contra hfor
    obtain ⟨a, ha⟩ := Option.ne_none_iff_exists'.mp (by simpa [isFor] using hfor)
    have hmem : a ∈ acts thread (cs.map Command.kind) :=
      List.mem_filterMap.mpr ⟨c.kind, List.mem_map_of_mem hc, ha⟩
    rw [hacts] at hmem
    cases hmem
  constructor
  · rw [hloop]
    refine h.queue.commands ?_ ?_ ?_
    · intro c hc hfor
      rw [hnone c hc] at hfor
      cases hfor
    · apply List.pairwise_of_forall_mem_list
      intro c hc d _ hfor
      rw [hnone c hc] at hfor
      cases hfor
    · intro x _ c hc hfor
      rw [hnone c hc] at hfor
      cases hfor
  · rw [waitingActs_commands hloop, hacts, List.append_nil]
    exact h.play
  · intro hended x hx
    rcases waiting_of_commands hloop hx with hx | ⟨c, -, -, a, ha, -⟩
    · exact h.ended hended x hx
    · rw [hacts] at ha
      cases ha
  · rw [hthd]
    exact h.thd?

/-- Steps of the loop that handle no item of the thread. -/
theorem Follows.silent (h : Follows host thread w b) (hr : Reachable b.loop)
    {l : Awb.Classic.Label} (hstep : Awb.Classic.Step b.loop l b'.loop)
    (harrived : l.arrived = []) (hfinished : l.finished.filter (fun x => isFor thread x.kind) = [])
    (hthreads : b'.threads = b.threads) : Follows host thread w b' := by
  have hwaiting : b.loop.waiting (isFor thread) = b'.loop.waiting (isFor thread) := by
    have heq := hstep.move.waiting (noProgress_isFor thread) h.queue hr
    rwa [harrived, hfinished, List.filter_nil, List.append_nil, List.nil_append] at heq
  constructor
  · apply h.queue.move hstep.move (noProgress_isFor thread) hr
    intro x hx
    rw [harrived] at hx
    cases hx
  · rw [Bench.waitingActs, ← hwaiting]
    exact h.play
  · rw [← hwaiting]
    exact h.ended
  · rw [Bench.thd?, hthreads]
    exact h.thd?

/-- The action that waits first is executed. -/
theorem Follows.process (h : Follows host thread w b) (hr : Reachable b.loop) {item : WorkItem}
    {current : Counters} {r : Option Scheduled} {a : Act}
    (hstep : Awb.Classic.Step b.loop (.process item current r) b'.loop)
    (ha : actFor thread item.kind = some a) (hthreads : b'.threads = b.threads) :
    ∃ w', w.act true a = some w' ∧ Follows host thread w' b' := by
  have hfor : isFor thread item.kind = true := by rw [isFor, ha, Option.isSome_some]
  have hwaiting := hstep.move.process_waiting (noProgress_isFor thread) h.queue hr hfor
  have hacts : b.waitingActs thread = a :: b'.waitingActs thread := by
    rw [Bench.waitingActs, hwaiting, List.map_cons, acts_cons_some ha]
    rfl
  have hplay := h.play
  rw [hacts, List.foldlM_cons] at hplay
  obtain ⟨scheduled, hact, hplay⟩ := Option.bind_eq_some_iff.mp hplay
  have hqueue : Queue (isFor thread) b'.loop := by
    apply h.queue.move hstep.move (noProgress_isFor thread) hr
    intro x hx
    cases hx
  have hended : w.alive = false → ∀ x ∈ b'.loop.waiting (isFor thread),
      actFor thread x.kind = some .unsched ∧ x.time = 0 := by
    intro hended x hx
    exact h.ended hended x (hwaiting ▸ List.mem_cons_of_mem item hx)
  -- of a thread that has ended only its last action waits
  have hlast : w.alive = false → a = .unsched := by
    intro hended
    obtain ⟨hkind, -⟩ := h.ended hended item (hwaiting ▸ List.mem_cons_self)
    exact Option.some.inj (ha.symm.trans hkind)
  have hwatch : w.act true a = some { w with scheduled } := by
    obtain ⟨alive, before⟩ := w
    cases alive with
    | false =>
      obtain rfl := hlast rfl
      cases before <;> simp_all [Workbench.play, Watch.act]
    | true =>
      cases a <;> cases before <;> simp_all [Workbench.play, Watch.act]
  refine ⟨_, hwatch, hqueue, hplay, hended, ?_⟩
  rw [Bench.thd?, hthreads]
  exact h.thd?

/-- The workbench skips the thread, or does something else. -/
theorem Follows.skip (h : Follows host thread w b) {uid : String} {cs : List Command}
    (hskip : Bench.Skipped host uid cs b b')
    (hdue : ∀ x ∈ b.loop.waiting (touches host uid), x.time ≤ b.pmControl .cycle) :
    Follows host thread w b' := by
  have hloop := hskip.queued.loop
  by_cases hacts : acts thread (cs.map Command.kind) = []
  · exact h.other hloop hacts (hskip.thd? _)
  · obtain ⟨hsome, huid⟩ := hskip.named thread hacts
    have halive : w.alive = true := by
      rw [h.thd?] at hsome
      split_ifs at hsome with halive
      · exact halive
      · cases hsome
    constructor
    · rw [hloop]
      refine h.queue.commands (fun c hc _ => Or.inr (hskip.delayed.trigger c hc)) ?_ ?_
      · exact hskip.delayed.sorted.imp fun h _ _ => h
      · intro x hx c hc _
        obtain ⟨hx, hfor⟩ := List.mem_filter.mp hx
        have hx' : x ∈ b.loop.waiting (touches host uid) :=
          List.mem_filter.mpr ⟨hx, touches_of_isFor hfor huid⟩
        exact (hdue x hx').trans (hskip.delayed.le c hc)
    · rw [waitingActs_commands hloop, List.foldlM_append, h.play, halive]
      have hmem := hskip.acts thread
      simp only [Bench.skipActs, List.mem_cons, List.not_mem_nil, or_false] at hmem
      rcases hmem with h | h | h | h <;> rw [h] <;> rfl
    · intro hended
      rw [halive] at hended
      cases hended
    · rw [hskip.thd?]
      exact h.thd?

theorem Follows.begins (h : Follows host thread w b) {cs : List Command}
    (hloop : b'.loop = cs.foldl LoopState.arrive b.loop) (hnow : Bench.ForNow cs)
    (hacts : acts thread (cs.map Command.kind) = [.sched])
    (hnone : b.thd? (host.uid thread) = none)
    (hthd : b'.thd? (host.uid thread) = some ⟨host.uid thread, host.desc thread, .running⟩) :
    Follows host thread { w with alive := true } b' := by
  have hended : w.alive = false := by
    by_contra halive
    rw [h.thd?, if_pos (by simpa using halive)] at hnone
    cases hnone
  constructor
  · rw [hloop]
    refine h.queue.commands (fun c hc _ => Or.inl (hnow c hc).1) ?_ ?_
    · apply List.pairwise_of_forall_mem_list
      intro c hc d hd _ _
      rw [(hnow c hc).2, (hnow d hd).2]
    · intro x hx c _ _
      rw [(h.ended hended x hx).2]
      exact Nat.zero_le _
  · rw [waitingActs_commands hloop, hacts, foldlM_append_singleton h.play, hended]
    rfl
  · intro halive
    cases halive
  · rw [hthd, if_pos rfl]

theorem Follows.ends (h : Follows host thread w b) {cs : List Command}
    (hloop : b'.loop = cs.foldl LoopState.arrive b.loop) (hnow : Bench.ForNow cs)
    (hacts : acts thread (cs.map Command.kind) = [.unsched])
    (hsome : (b.thd? (host.uid thread)).isSome = true)
    (hempty : b.loop.waiting (isFor thread) = [])
    (hthd : b'.thd? (host.uid thread) = none) :
    Follows host thread { w with alive := false } b' := by
  have halive : w.alive = true := by
    by_contra hended
    rw [h.thd?, if_neg hended] at hsome
    cases hsome
  constructor
  · rw [hloop]
    refine h.queue.commands (fun c hc _ => Or.inl (hnow c hc).1) ?_ ?_
    · apply List.pairwise_of_forall_mem_list
      intro c hc d hd _ _
      rw [(hnow c hc).2, (hnow d hd).2]
    · intro x hx
      rw [hempty] at hx
      cases hx
  · rw [waitingActs_commands hloop, hacts, foldlM_append_singleton h.play, halive]
    rfl
  · intro _ x hx
    rcases waiting_of_commands hloop hx with hx | ⟨c, hc, htime, a, ha, hkind⟩
    · rw [hempty] at hx
      cases hx
    · rw [hacts] at ha
      obtain rfl := List.mem_singleton.mp ha
      rw [htime, (hnow c hc).2]
      exact ⟨hkind, rfl⟩
  · rw [hthd, if_neg Bool.false_ne_true]

/-- The other benchmark commands act on no thread. -/
theorem Bench.eval_other {cmd : Cmd} (h : b.eval host cmd = .ok b')
    (hskip : ∀ uid inst markerID, cmd ≠ .awbSkip uid inst markerID)
    (hnewSkip : ∀ uid inst markerID, cmd ≠ .awbNewSkip uid inst markerID) :
    ∃ cs : List Command, b'.loop = cs.foldl LoopState.arrive b.loop ∧
      (∀ thread, acts thread (cs.map Command.kind) = []) ∧ b'.threads = b.threads ∧
      b'.pendingProgress = b.pendingProgress := by
  cases cmd with
  | awbRun type amount =>
    obtain rfl := Except.ok.inj ((awbRun_eq type amount).symm.trans h)
    exact ⟨[_, _], rfl, fun _ => rfl, rfl, rfl⟩
  | awbExit =>
    obtain rfl := Except.ok.inj (awbExit_eq.symm.trans h)
    exact ⟨[_, _], rfl, fun _ => rfl, rfl, rfl⟩
  | awbSkip uid inst markerID => exact absurd rfl (hskip uid inst markerID)
  | awbNewSkip uid inst markerID => exact absurd rfl (hnewSkip uid inst markerID)
  | awbBeginDrain | awbEndDrain =>
    obtain rfl := Except.ok.inj h
    exact ⟨[], rfl, fun _ => rfl, rfl, rfl⟩
  | awbSample warmup run skip iter =>
    obtain rfl := Except.ok.inj h
    unfold awbSample
    split_ifs <;> exact ⟨[], rfl, fun _ => rfl, rfl, rfl⟩
  | awbProgress type period =>
    obtain ⟨c, rfl, type', args, hkind, -⟩ := awbProgress_ok h
    refine ⟨[c], rfl, ?_, rfl, rfl⟩
    intro thread
    rw [List.map_singleton, hkind]
    rfl
  | awbStats onoffdump file =>
    obtain rfl := awbStats_ok h
    exact ⟨[], rfl, fun _ => rfl, rfl, rfl⟩
  | awbEvents onofffilename file =>
    obtain rfl := awbEvents_ok h
    exact ⟨[], rfl, fun _ => rfl, rfl, rfl⟩

theorem acts_notification {kind : WorkKind} (h : isNotification kind = true) (thread : Thread) :
    acts thread ([Bench.notification kind].map Command.kind) = [] := by
  cases kind with
  | thdBegin | thdEnd | thdUnblock | thdBlock => rfl
  | _ => cases h

/-- A thread that begins is reported with its uid and its descriptor. -/
theorem cmdProgress_begin {kind : WorkKind} (hplain : Plain kind) {p : Progress}
    (hp : p ∈ host.cmdProgress kind) (htype : p.type = .threadBegin) :
    ∃ thread, p.args = [host.uid thread, host.desc thread] := by
  unfold Host.cmdProgress at hp
  split at hp
  case h_3 type args =>
    have htype' : type = .threadBegin := by
      split_ifs at hp
      · exact (congrArg Progress.type (List.mem_singleton.mp hp)).symm.trans htype
      · exact (congrArg Progress.type (List.mem_singleton.mp hp)).symm.trans htype
      · cases hp
    have hacts := hplain type args rfl
    rw [htype'] at hacts
    cases hacts
  case h_4 thread =>
    obtain rfl := List.mem_singleton.mp hp
    exact ⟨thread, rfl⟩
  case h_9 => cases hp
  all_goals
    obtain rfl := List.mem_singleton.mp hp
    cases htype

namespace Tracked
variable {tr : List Label}

/-- Commands that act on no thread. -/
theorem other (h : Tracked host tr b) {cs : List Command}
    (hloop : b'.loop = cs.foldl LoopState.arrive b.loop)
    (hacts : ∀ thread, acts thread (cs.map Command.kind) = []) (hthreads : b'.threads = b.threads)
    (hpending : ∀ p ∈ b'.pendingProgress, p ∈ b.pendingProgress) : Tracked host tr b' where
  known := h.known.of_threads hthreads
  beginArgs p hp := h.beginArgs p (hpending p hp)
  follows thread := by
    obtain ⟨w, htr, hw⟩ := h.follows thread
    refine ⟨w, htr, hw.other hloop (hacts thread) ?_⟩
    rw [Bench.thd?, Bench.thd?, hthreads]

theorem frame (h : Tracked host tr b) (hloop : b'.loop = b.loop)
    (hthreads : b'.threads = b.threads)
    (hpending : ∀ p ∈ b'.pendingProgress, p ∈ b.pendingProgress) : Tracked host tr b' := by
  have hnone : b'.loop = ([] : List Command).foldl LoopState.arrive b.loop := hloop
  exact h.other hnone (fun _ => rfl) hthreads hpending

theorem command (h : Tracked host tr b) {c : Command}
    (hacts : ∀ thread, acts thread ([c].map Command.kind) = []) :
    Tracked host tr (b.command c) := by
  have hloop : (b.command c).loop = [c].foldl LoopState.arrive b.loop := rfl
  exact h.other hloop hacts rfl fun _ hp => hp

/-- A step that no observer sees. -/
theorem unseen (h : Tracked host tr b) {l : Label}
    (hobserve : ∀ thread w, Watch.observe true host thread w l = some w) :
    Tracked host (tr ++ [l]) b where
  known := h.known
  beginArgs := h.beginArgs
  follows thread := by
    obtain ⟨w, htr, hw⟩ := h.follows thread
    refine ⟨w, ?_, hw⟩
    rw [foldlM_append_singleton htr, hobserve]

/-- What `AwbRun` queues. -/
theorem run (h : Tracked host tr b) (type : RunType) (n : Nat) (stop : BmStop) :
    Tracked host tr (({ b.command (type.later.command .stop (scanned n)) with
      bmStop := stop } : Bench).command Bench.startCommand) := by
  have hloop : Bench.loop (Bench.command { b.command (type.later.command .stop (scanned n)) with
      bmStop := stop } Bench.startCommand) =
    [type.later.command .stop (scanned n), Bench.startCommand].foldl LoopState.arrive b.loop := rfl
  exact h.other hloop (fun _ => rfl) rfl fun _ hp => hp

theorem allRunning (h : Tracked host tr b) : Bench.AllRunning b := by
  intro u thd hthd
  obtain ⟨thread, -, rfl, -⟩ := h.known.thread u thd hthd
  obtain ⟨w, -, hw⟩ := h.follows thread
  rw [hw.thd?] at hthd
  split_ifs at hthd
  obtain rfl := Option.some.inj hthd
  rfl

theorem skip (h : Tracked host tr b) {l : Label} {uid : String} {cs : List Command}
    (hobserve : ∀ thread w, Watch.observe true host thread w l = some w)
    (hskip : Bench.Skipped host uid cs b b')
    (hdue : ∀ x ∈ b.loop.waiting (touches host uid), x.time ≤ b.pmControl .cycle) :
    Tracked host (tr ++ [l]) b' := by
  constructor
  · refine ⟨fun u thd hu => h.known.thread u thd ?_, hskip.uids ▸ h.known.nodup⟩
    rw [← hskip.thd?]
    exact hu
  · rw [hskip.queued.pendingProgress]
    exact h.beginArgs
  · intro thread
    obtain ⟨w, htr, hw⟩ := h.follows thread
    refine ⟨w, ?_, hw.skip hskip hdue⟩
    rw [foldlM_append_singleton htr, hobserve]

theorem eval (h : Tracked host tr b) (hunique : Function.Injective host.threadUid) {cmd : Cmd}
    {counters : Counters} (hpaced : Paced host b (.eval cmd counters))
    (heval : b.eval host cmd = .ok b') : Tracked host (tr ++ [.eval cmd counters]) b' := by
  by_cases hskip : ∃ uid inst markerID, cmd = .awbSkip uid inst markerID
  · obtain ⟨uid, inst, markerID, rfl⟩ := hskip
    obtain ⟨cs, hcs⟩ := Bench.awbSkip_skips hunique h.known h.allRunning heval
    exact h.skip (fun _ _ => rfl) hcs hpaced
  · by_cases hnewSkip : ∃ uid inst markerID, cmd = .awbNewSkip uid inst markerID
    · obtain ⟨uid, inst, markerID, rfl⟩ := hnewSkip
      obtain ⟨cs, hcs⟩ := Bench.awbNewSkip_skips hunique h.known h.allRunning heval
      exact h.skip (fun _ _ => rfl) hcs hpaced
    · obtain ⟨cs, hloop, hacts, hthreads, hpending⟩ := Bench.eval_other heval
        (fun uid inst markerID heq => hskip ⟨uid, inst, markerID, heq⟩)
        (fun uid inst markerID heq => hnewSkip ⟨uid, inst, markerID, heq⟩)
      exact (h.other hloop hacts hthreads fun p hp => hpending ▸ hp).unseen fun _ _ => rfl

theorem begins (h : Tracked host tr b) (hunique : Function.Injective host.threadUid)
    {p : Progress} (htype : p.type = .threadBegin)
    (hargs : p.args = [host.uid thread, host.desc thread])
    (hbegin : b.threadBegin host (host.uid thread) (host.desc thread) = .ok b') :
    Tracked host (tr ++ [.event p]) b' := by
  obtain ⟨hnone, hknown, hthd, cs, hqueued, hnow, hacts⟩ :=
    Bench.threadBegin_begins hunique h.known hbegin
  refine ⟨hknown, ?_, ?_⟩
  · rw [hqueued.pendingProgress]
    exact h.beginArgs
  · intro thread'
    obtain ⟨w, htr, hw⟩ := h.follows thread'
    by_cases heq : thread' = thread
    · subst heq
      refine ⟨{ w with alive := true }, ?_, ?_⟩
      · rw [foldlM_append_singleton htr]
        simp [Watch.observe, hargs, htype]
      · apply hw.begins hqueued.loop hnow
        · rw [hacts, if_pos rfl]
        · exact hnone
        · rw [hthd, if_pos rfl]
    · have huid : host.uid thread' ≠ host.uid thread :=
        fun huid => heq (host.uid_injective hunique huid)
      refine ⟨w, ?_, ?_⟩
      · rw [foldlM_append_singleton htr]
        simp [Watch.observe, hargs, huid.symm]
      · apply hw.other hqueued.loop
        · rw [hacts, if_neg heq]
        · rw [hthd, if_neg huid]

theorem ends (h : Tracked host tr b) (hunique : Function.Injective host.threadUid)
    {p : Progress} (htype : p.type = .threadEnd)
    (hempty : b.loop.waiting (touches host (p.args.getD 0 "")) = [])
    (hend : b.threadEnd host (p.args.getD 0 "") = .ok b') :
    Tracked host (tr ++ [.event p]) b' := by
  obtain ⟨hsome, hknown, hthd, cs, hqueued, hnow, hacts⟩ :=
    Bench.threadEnd_ends hunique h.known hend
  refine ⟨hknown, ?_, ?_⟩
  · rw [hqueued.pendingProgress]
    exact h.beginArgs
  · intro thread
    obtain ⟨w, htr, hw⟩ := h.follows thread
    by_cases huid : host.uid thread = p.args.getD 0 ""
    · have hclear : b.loop.waiting (isFor thread) = [] := by
        apply List.eq_nil_iff_forall_not_mem.mpr
        intro x hx
        obtain ⟨hx, hfor⟩ := List.mem_filter.mp hx
        have hx' : x ∈ b.loop.waiting (touches host (p.args.getD 0 "")) :=
          List.mem_filter.mpr ⟨hx, touches_of_isFor hfor (Or.inr huid.symm)⟩
        rw [hempty] at hx'
        cases hx'
      refine ⟨{ w with alive := false }, ?_, ?_⟩
      · rw [foldlM_append_singleton htr]
        simp only [Watch.observe, htype, huid, if_true]
      · apply hw.ends hqueued.loop hnow _ _ hclear
        · rw [hthd, if_pos huid]
        · rw [hacts, if_pos huid]
        · rw [huid]
          exact hsome
    · refine ⟨w, ?_, ?_⟩
      · rw [foldlM_append_singleton htr]
        simp only [Watch.observe, if_neg fun h => huid (Eq.symm h)]
      · apply hw.other hqueued.loop
        · rw [hacts, if_neg huid]
        · rw [hthd, if_neg huid]

theorem event (h : Tracked host tr b) (hunique : Function.Injective host.threadUid)
    {p : Progress} (hbegin : p.type = .threadBegin →
      ∃ thread, p.args = [host.uid thread, host.desc thread])
    (hempty : p.type = .threadEnd → b.loop.waiting (touches host (p.args.getD 0 "")) = [])
    (hevent : b.batchProgress host p = .ok b') : Tracked host (tr ++ [.event p]) b' := by
  have hother : p.type ≠ .threadBegin → p.type ≠ .threadEnd → b' = b ∨ b' = b.processBmCmds →
      Tracked host (tr ++ [.event p]) b' := by
    intro hne hne' hb'
    have hobserve : ∀ thread w, Watch.observe true host thread w (.event p) = some w := by
      intro thread w
      simp only [Watch.observe]
      split_ifs
      · rfl
      · rfl
    rcases hb' with rfl | rfl
    · exact h.unseen hobserve
    · have hframe : Tracked host tr b.processBmCmds := h.frame rfl rfl fun _ hp => hp
      exact hframe.unseen hobserve
  unfold Bench.batchProgress at hevent
  split at hevent
  case h_6 htype => exact hother (by simp [htype]) (by simp [htype]) (Bench.checkBmCmds_ok hevent)
  case h_7 htype =>
    obtain ⟨thread, hargs⟩ := hbegin htype
    rw [hargs] at hevent
    exact h.begins hunique htype hargs hevent
  case h_8 htype => exact h.ends hunique htype (hempty htype) hevent
  case h_12 => cases hevent
  all_goals
    obtain rfl := Except.ok.inj hevent
    exact hother (by simp [*]) (by simp [*]) (Or.inl rfl)

/-- A step of the loop other than the handling of an item. -/
theorem loop (h : Tracked host tr b) (hr : Reachable b.loop) {l : Awb.Classic.Label}
    (hstep : Awb.Classic.Step b.loop l b'.loop) (harrived : l.arrived = [])
    (hfinished : l.finished = []) (hthreads : b'.threads = b.threads)
    (hpending : b'.pendingProgress = b.pendingProgress)
    (hobserve : ∀ thread w, Watch.observe true host thread w (.loop l) = some w) :
    Tracked host (tr ++ [.loop l]) b' := by
  refine ⟨h.known.of_threads hthreads, hpending ▸ h.beginArgs, ?_⟩
  intro thread
  obtain ⟨w, htr, hw⟩ := h.follows thread
  refine ⟨w, ?_, hw.silent hr hstep harrived ?_ hthreads⟩
  · rw [foldlM_append_singleton htr, hobserve]
  · rw [hfinished, List.filter_nil]

theorem process (h : Tracked host tr b) (hr : Reachable b.loop)
    (hplain : ∀ x, b.loop.Holds x → Plain x.kind) {item : WorkItem} {current : Counters}
    {r : Option Scheduled} (hstep : Awb.Classic.Step b.loop (.process item current r) b'.loop)
    (hthreads : b'.threads = b.threads)
    (hpending : b'.pendingProgress = b.pendingProgress ++ host.cmdProgress item.kind) :
    Tracked host (tr ++ [.loop (.process item current r)]) b' := by
  refine ⟨h.known.of_threads hthreads, ?_, ?_⟩
  · rw [hpending]
    intro p hp htype
    rcases List.mem_append.mp hp with hp | hp
    · exact h.beginArgs p hp htype
    · obtain ⟨k, hk⟩ := hstep.move.process_mem
      exact cmdProgress_begin (hplain item (Or.inr ⟨k, hk⟩)) hp htype
  · intro thread
    obtain ⟨w, htr, hw⟩ := h.follows thread
    cases ha : actFor thread item.kind with
    | none =>
      refine ⟨w, ?_, hw.silent hr hstep rfl ?_ hthreads⟩
      · rw [foldlM_append_singleton htr]
        simp only [Watch.observe, ha]
      · have hfor : isFor thread item.kind = false := by rw [isFor, ha, Option.isSome_none]
        cases r with
        | none => simp [Label.finished, hfor]
        | some r => rfl
    | some a =>
      obtain ⟨w', hact, hw'⟩ := hw.process hr hstep ha hthreads
      refine ⟨w', ?_, hw'⟩
      rw [foldlM_append_singleton htr]
      simp only [Watch.observe, ha, hact]

theorem step (h : Tracked host tr b) (hunique : Function.Injective host.threadUid)
    (hr : Reachable b.loop) (hplain : ∀ x, b.loop.Holds x → Plain x.kind) {l : Label}
    (hpaced : Paced host b l) (hstep : Step host b l b') : Tracked host (tr ++ [l]) b' := by
  cases hstep.move with
  | @notify kind hkind =>
    exact (h.command (acts_notification hkind)).unseen fun _ _ => rfl
  | @eval cmd rest b'' hphase hprocessing hcmds heval =>
    have h₀ : Tracked host tr { b with bmCmds := rest } := h.frame rfl rfl fun _ hp => hp
    exact (h₀.eval hunique hpaced heval).frame rfl rfl fun _ hp => hp
  | @event p rest b' hphase hprocessing hpending hevent =>
    have h₀ : Tracked host tr { b with pendingProgress := rest } :=
      h.frame rfl rfl fun p' hp' => hpending ▸ List.mem_cons_of_mem p hp'
    exact h₀.event hunique (h.beginArgs p (hpending ▸ List.mem_cons_self)) hpaced hevent
  | @quiet l loop hquiet hidle hturn =>
    cases l with
    | arrive | drained | process | execute => cases hquiet
    | sample | leave | drain | idle | wait =>
      exact h.loop hr hturn rfl rfl rfl rfl (fun _ _ => rfl)
  | drained hturn => exact h.loop hr hturn rfl rfl rfl rfl (fun _ _ => rfl)
  | process hnull hturn => exact h.process hr hplain hturn rfl rfl
  | execute hidle hbreak hturn => exact h.loop hr hturn rfl rfl rfl rfl (fun _ _ => rfl)

/-- Before anything is known of threads. -/
theorem start (current system : Counters) :
    Tracked host [] { loop := Awb.Classic.start current system } := by
  have hholds : ∀ x, ¬ (Awb.Classic.start current system).Holds x := by
    rintro x (hx | ⟨k, hx⟩)
    · cases hx
    · simp [Awb.Classic.start] at hx
  have hknown : Bench.Known host { loop := Awb.Classic.start current system } := by
    constructor
    · intro u thd hthd
      cases hthd
    · exact List.nodup_nil
  refine ⟨hknown, by simp, ?_⟩
  intro thread
  refine ⟨{}, rfl, ⟨fun x hx => absurd hx (hholds x), List.Pairwise.nil⟩, rfl, ?_, rfl⟩
  intro _ x hx
  cases hx

theorem notified {kinds : List WorkKind} (h : Tracked host tr b)
    (hkinds : ∀ kind ∈ kinds, isNotification kind = true) :
    Tracked host tr ((kinds.map Bench.notification).foldl Bench.command b) := by
  induction kinds generalizing b with
  | nil => exact h
  | cons kind kinds ih =>
    have hfirst : Tracked host tr (b.command (Bench.notification kind)) :=
      h.command (acts_notification (hkinds kind List.mem_cons_self))
    exact ih hfirst fun k hk => hkinds k (List.mem_cons_of_mem kind hk)

end Tracked

theorem Started.tracked {script : List Cmd} (h : Started host script b) : Tracked host [] b := by
  obtain ⟨current, system, kinds, hkinds, hinit⟩ := h
  have hstart : Tracked host [] { loop := Awb.Classic.start current system } :=
    Tracked.start current system
  have hnotified := hstart.notified hkinds
  generalize (kinds.map Bench.notification).foldl Bench.command
    { loop := Awb.Classic.start current system } = b₀ at hnotified hinit
  have hcmds : Tracked host [] { b₀ with bmCmds := script } :=
    hnotified.frame rfl rfl fun _ hp => hp
  unfold Bench.awbInit at hinit
  split_ifs at hinit
  · rw [Bench.pmSchedule_start] at hinit
    obtain rfl := Except.ok.inj hinit
    exact hcmds.command fun _ => rfl
  · rw [Bench.awbRun_eq] at hinit
    obtain rfl := Except.ok.inj hinit
    exact hcmds.run .cycle _ _

/-- In every run in which threads are skipped and end only when no delayed action waits for them,
the actions on every thread alternate. After the end of a thread only the action that
unschedules it is executed. -/
theorem actions_alternate (hunique : Function.Injective host.threadUid) {script : List Cmd}
    (hb : Started host script b) {tr : List Label}
    (h : Lts.Run (Lts.guarded (Paced host) (Step host)) b tr b') (thread : Thread) :
    Alternates true host thread tr := by
  have htracked : Tracked host tr b' ∧ Lts.Run (Step host) b tr b' := by
    apply h.invariant fun tr b' => Tracked host tr b' ∧ Lts.Run (Step host) b tr b'
    · exact ⟨hb.tracked, .nil⟩
    · rintro tr t l u ⟨ht, hrun⟩ ⟨hpaced, hstep⟩
      refine ⟨ht.step hunique (reachable_of_run hb hrun) (plain_of_run hb hrun) hpaced hstep, ?_⟩
      exact hrun.snoc hstep
  obtain ⟨w, htr, -⟩ := htracked.1.follows thread
  rw [Alternates, htr, Option.isSome_some]

/-- The step that an input brings, if threads are skipped and end as they should. -/
def Bench.nextPaced (host : Host) (b : Bench) (input : Input) : Option (Label × Bench) :=
  (b.next host input).filter fun r => Paced host b r.1

theorem Bench.step_of_nextPaced {input : Input} {l : Label}
    (h : b.nextPaced host input = some (l, b')) : Lts.guarded (Paced host) (Step host) b l b' := by
  obtain ⟨hnext, hpaced⟩ := Option.filter_eq_some_iff.mp h
  exact ⟨of_decide_eq_true hpaced, step_of_next hnext⟩

theorem Bench.run_of_followPaced {inputs : List Input} {tr : List Label}
    (h : Lts.follow (Bench.nextPaced host) b inputs = some (tr, b')) :
    Lts.Run (Lts.guarded (Paced host) (Step host)) b tr b' := by
  have hnext : ∀ b i l b', Bench.nextPaced host b i = some (l, b') →
      Lts.guarded (Paced host) (Step host) b l b' := fun _ _ _ _ h => step_of_nextPaced h
  exact Lts.Run.of_follow hnext h

/-- A thread begins in front of a script that skips it once. -/
def oneSkip : Bench where
  loop := { start ⟨0, 0, 0, 0, 0⟩ ⟨0, 0, 0, 0, 0⟩ with
    ctrlWorkList := [⟨0, .thdBegin 1, .now, 0, 0⟩, ⟨1, .stop, .cycleOnce, 0, 0⟩,
      ⟨2, .start, .now, 0, 0⟩]
    pmStopped := false
    nextId := 3 }
  sysBreak := true
  bmCmds := [.awbSkip "1" 5 (-1), .awbRun .cycle 3, .awbExit]
  bmStop := .run .cycle 0

theorem started_oneSkip :
    Started plainHost [.awbSkip "1" 5 (-1), .awbRun .cycle 3, .awbExit] oneSkip :=
  ⟨⟨0, 0, 0, 0, 0⟩, ⟨0, 0, 0, 0, 0⟩, [.thdBegin 1], by decide, rfl⟩

/-- The thread is skipped at cycle 1 and scheduled again at cycle 2, where it ends. -/
def oneSkipInputs : List Input :=
  List.replicate 28 (.turn ⟨0, 0, 0, 0, 0⟩) ++ List.replicate 6 (.turn ⟨0, 1, 0, 0, 0⟩) ++
    List.replicate 5 (.turn ⟨0, 2, 0, 0, 0⟩) ++ [.notify (.thdEnd (some 1))] ++
    List.replicate 13 (.turn ⟨0, 2, 0, 0, 0⟩)

/-- The last action is executed after the end of the thread. -/
theorem follow_oneSkip : ∃ tr b',
    Lts.follow (Bench.nextPaced plainHost) oneSkip oneSkipInputs = some (tr, b') ∧
      ¬ Alternates false plainHost 1 tr := by
  have hany : (Lts.follow (Bench.nextPaced plainHost) oneSkip oneSkipInputs).any
      (fun r => !Alternates false plainHost 1 r.1) = true := by decide
  obtain ⟨⟨tr, b'⟩, hr, hnot⟩ := (Option.any_eq_true _ _).mp hany
  exact ⟨tr, b', hr, by simpa using hnot⟩

theorem actions_alternate_oneSkip : ∃ tr b',
    Lts.Run (Lts.guarded (Paced plainHost) (Step plainHost)) oneSkip tr b' ∧
      ¬ Alternates false plainHost 1 tr ∧ Alternates true plainHost 1 tr := by
  obtain ⟨tr, b', hfollow, hnot⟩ := follow_oneSkip
  have hrun := Bench.run_of_followPaced hfollow
  exact ⟨tr, b', hrun, hnot, actions_alternate (fun _ _ h => h) started_oneSkip hrun 1⟩

/-- The same thread in front of a script with two skips in one cycle. -/
def twoSkips : Bench :=
  { oneSkip with bmCmds := [.awbSkip "1" 5 (-1), .awbSkip "1" 5 (-1), .awbExit] }

/-- Two skips in one cycle unschedule the thread twice, and after the end of a thread an action is
executed even if no skip is near. -/
theorem actions_not_alternate :
    (∃ tr b', Started plainHost [.awbSkip "1" 5 (-1), .awbSkip "1" 5 (-1), .awbExit] twoSkips ∧
      Lts.Run (Step plainHost) twoSkips tr b' ∧ ¬ Alternates true plainHost 1 tr) ∧
    (∃ tr b', Started plainHost [.awbSkip "1" 5 (-1), .awbRun .cycle 3, .awbExit] oneSkip ∧
      Lts.Run (Lts.guarded (Paced plainHost) (Step plainHost)) oneSkip tr b' ∧
      ¬ Alternates false plainHost 1 tr) := by
  constructor
  · have hany : (Lts.follow (Bench.next plainHost) twoSkips
        (List.replicate 30 (.turn ⟨0, 0, 0, 0, 0⟩))).any
        (fun r => !Alternates true plainHost 1 r.1) = true := by decide
    obtain ⟨⟨tr, b'⟩, hr, hnot⟩ := (Option.any_eq_true _ _).mp hany
    refine ⟨tr, b', ⟨⟨0, 0, 0, 0, 0⟩, ⟨0, 0, 0, 0, 0⟩, [.thdBegin 1], by decide, rfl⟩, ?_, ?_⟩
    · exact Bench.run_of_follow hr
    · simpa using hnot
  · obtain ⟨tr, b', hfollow, hnot⟩ := follow_oneSkip
    exact ⟨tr, b', started_oneSkip, Bench.run_of_followPaced hfollow, hnot⟩

end Awb.Workbench
