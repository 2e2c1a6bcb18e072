import Awb.Workbench.Commanded

/-! The actions of one thread that the procedures of the workbench queue. -/

namespace Awb.Workbench
open Awb.Classic

/-- The actions on a thread that the performance model executes. -/
inductive Act
  | sched
  | unsched
  | skip
  deriving DecidableEq, Repr

/-- What an item does with a thread. -/
def actFor (thread : Thread) : WorkKind → Option Act
  | .thdSched t => if t = thread then some .sched else none
  | .thdUnsched t => if t = thread then some .unsched else none
  | .thdSkip t _ _ => if t = some thread then some .skip else none
  | _ => none

def isFor (thread : Thread) (kind : WorkKind) : Bool := (actFor thread kind).isSome

def acts (thread : Thread) (kinds : List WorkKind) : List Act := kinds.filterMap (actFor thread)

theorem noProgress_isFor (thread : Thread) : NoProgress (isFor thread) := fun _ _ => rfl

theorem acts_cons_some {thread : Thread} {kind : WorkKind} {a : Act}
    (h : actFor thread kind = some a) (kinds : List WorkKind) :
    acts thread (kind :: kinds) = a :: acts thread kinds := List.filterMap_cons_some h

theorem acts_cons_none {thread : Thread} {kind : WorkKind} (h : actFor thread kind = none)
    (kinds : List WorkKind) : acts thread (kind :: kinds) = acts thread kinds :=
  List.filterMap_cons_none h

theorem acts_append (thread : Thread) (kinds kinds' : List WorkKind) :
    acts thread (kinds ++ kinds') = acts thread kinds ++ acts thread kinds' :=
  List.filterMap_append

theorem acts_filter (thread : Thread) (l : WorkList) :
    acts thread ((l.filter fun x => isFor thread x.kind).map WorkItem.kind) =
      acts thread (l.map WorkItem.kind) := by
  induction l with
  | nil => rfl
  | cons x l ih =>
    cases h : actFor thread x.kind with
    | none =>
      rw [List.filter_cons_of_neg (by simp [isFor, h]), ih, List.map_cons, acts_cons_none h]
    | some a =>
      rw [List.filter_cons_of_pos (by simp [isFor, h]), List.map_cons, List.map_cons,
        acts_cons_some h, acts_cons_some h, ih]

/-- The action of a thread that the two options queue. -/
def moveAct (option : String) : Act := if option = "schedthread" then .sched else .unsched

theorem actFor_threadKind (option : String) (thread thread' : Thread) :
    actFor thread (Bench.threadKind option thread') =
      if thread' = thread then some (moveAct option) else none := by
  unfold Bench.threadKind moveAct
  split_ifs <;> simp_all [actFor]

namespace Host
variable {host : Host}

theorem uid_ne_all (thread : Thread) : host.uid thread ≠ "all" := by
  intro h
  have hdigits : ∀ c ∈ (host.uid thread).toList, c.isDigit = true := by
    have htoList : (host.uid thread).toList = Nat.toDigits 10 (host.threadUid thread) :=
      Nat.toList_repr
    rw [htoList]
    exact fun c hc => Nat.isDigit_of_mem_toDigits (by decide) (by decide) hc
  rw [h] at hdigits
  exact absurd (hdigits 'a' (by decide)) (by decide)

theorem uid_injective (hunique : Function.Injective host.threadUid) :
    Function.Injective host.uid := by
  intro thread thread' h
  apply hunique
  have hdigits : Nat.toDigits 10 (host.threadUid thread) =
      Nat.toDigits 10 (host.threadUid thread') := by
    have htoList : ∀ n : Nat, (toString n).toList = Nat.toDigits 10 n := fun n => Nat.toList_repr
    rw [← htoList, ← htoList]
    exact congrArg String.toList h
  rw [← Nat.ofDigitChars_ten_toDigits (n := host.threadUid thread), hdigits,
    Nat.ofDigitChars_ten_toDigits]

end Host

namespace Bench
variable {host : Host} {b b' : Bench} {uid : String} {thread : Thread}

/-- The threads that the workbench knows are threads that began. -/
structure Known (host : Host) (b : Bench) : Prop where
  thread : ∀ u thd, b.thd? u = some thd →
    ∃ thread, thread ≠ 0 ∧ u = host.uid thread ∧ thd.desc = host.desc thread
  nodup : (b.threads.map Thd.uid).Nodup

namespace Known

theorem of_threads (h : Known host b) (hthreads : b'.threads = b.threads) : Known host b' where
  thread u thd hthd := by
    rw [thd?, hthreads] at hthd
    exact h.thread u thd hthd
  nodup := hthreads ▸ h.nodup

theorem described (h : Known host b) : Described host b := by
  intro u thd hthd
  obtain ⟨thread, hne, -, hdesc⟩ := h.thread u thd hthd
  exact ⟨thread, hdesc ▸ host.pmThreadDescToPtr_desc hne⟩

theorem pointer_eq (h : Known host b) (hunique : Function.Injective host.threadUid)
    (hknown : (b.thd? (host.uid thread)).isSome = true) :
    b.pointer host (host.uid thread) = thread := by
  obtain ⟨thd, hthd⟩ := Option.isSome_iff_exists.mp hknown
  obtain ⟨thread', hne, huid, hdesc⟩ := h.thread _ thd hthd
  obtain rfl := host.uid_injective hunique huid
  rw [pointer, hthd, Option.bind_some, hdesc, host.pmThreadDescToPtr_desc hne, Option.getD_some]

theorem of_thd? {state : ThdState} {p : String → Prop} [DecidablePred p]
    (hknown : Known host b) (huids : b'.threads.map Thd.uid = b.threads.map Thd.uid)
    (hthd : ∀ u, b'.thd? u = (b.thd? u).map fun thd => if p u then { thd with state } else thd) :
    Known host b' where
  thread u thd h := by
    rw [hthd u] at h
    obtain ⟨thd', hthd', rfl⟩ := Option.map_eq_some_iff.mp h
    obtain ⟨thread, hne, huid, hdesc⟩ := hknown.thread u thd' hthd'
    refine ⟨thread, hne, huid, ?_⟩
    split_ifs
    · exact hdesc
    · exact hdesc
  nodup := huids ▸ hknown.nodup

theorem moved {option : String} {target : ThdState} {a : ActionTime} {us : List String}
    (h : Known host b) (hmoved : Moved host option target a us b b') : Known host b' :=
  h.of_thd? hmoved.uids hmoved.thd?

end Known

/-- The actions of a thread, when the threads were moved. -/
theorem acts_move {option : String} {a : ActionTime} {us : List String}
    (hunique : Function.Injective host.threadUid) (hknown : Known host b) (hnodup : us.Nodup)
    (hus : ∀ u ∈ us, (b.thd? u).isSome = true) (thread : Thread) :
    acts thread ((us.map fun u => a.command (threadKind option (b.pointer host u))).map
      Command.kind) = if host.uid thread ∈ us then [moveAct option] else [] := by
  induction us with
  | nil => rfl
  | cons u us ih =>
    obtain ⟨hu, hnodup⟩ := List.nodup_cons.mp hnodup
    have hrest := ih hnodup fun u' hu' => hus u' (List.mem_cons_of_mem u hu')
    have hsome := hus u List.mem_cons_self
    obtain ⟨thd, hthd⟩ := Option.isSome_iff_exists.mp hsome
    obtain ⟨thread', -, rfl, -⟩ := hknown.thread u thd hthd
    have hpointer : b.pointer host (host.uid thread') = thread' := hknown.pointer_eq hunique hsome
    have hkind : (a.command (threadKind option thread')).kind = threadKind option thread' := rfl
    have hfirst := actFor_threadKind option thread thread'
    by_cases heq : thread' = thread
    · subst heq
      rw [if_pos rfl] at hfirst
      rw [List.map_cons, List.map_cons, hpointer, hkind, acts_cons_some hfirst, hrest, if_neg hu,
        if_pos List.mem_cons_self]
    · have hne : host.uid thread ≠ host.uid thread' := fun h =>
        heq (host.uid_injective hunique h).symm
      rw [if_neg heq] at hfirst
      rw [List.map_cons, List.map_cons, hpointer, hkind, acts_cons_none hfirst, hrest]
      simp only [List.mem_cons, hne, false_or]

/-- The threads that a procedure moves. -/
def Names (source : ThdState) (uid : String) (thd : Thd) : Prop :=
  thd.uid = uid ∨ uid = "all" ∧ thd.state = source

/-- `ScheduleThread` and `UnscheduleThread` move the threads they name. -/
theorem moveThreads_moved {name option trigger : String} {source target : ThdState} {time : Nat}
    {a : ActionTime} (hoption : option = "schedthread" ∨ option = "unschedthread")
    (htime : decodeActionTime trigger (some (toString time)) = some a)
    (hunique : Function.Injective host.threadUid) (hknown : Known host b)
    (h : b.moveThreads host name option source target uid trigger time = .ok b') :
    ∃ us : List String, Moved host option target a us b b' ∧
      (∀ u, u ∈ us ↔ ∃ thd, b.thd? u = some thd ∧ Names source uid thd) ∧
      ∀ thread, acts thread ((us.map fun u =>
        a.command (threadKind option (b.pointer host u))).map Command.kind) =
          if host.uid thread ∈ us then [moveAct option] else [] := by
  suffices hsuffices : ∃ us : List String, Moved host option target a us b b' ∧ us.Nodup ∧
      ∀ u, u ∈ us ↔ ∃ thd, b.thd? u = some thd ∧ Names source uid thd by
    obtain ⟨us, hmoved, hnodup, hus⟩ := hsuffices
    refine ⟨us, hmoved, hus, ?_⟩
    apply acts_move hunique hknown hnodup
    intro u hu
    obtain ⟨thd, hthd, -⟩ := (hus u).mp hu
    simp [hthd]
  by_cases hall : uid = "all"
  · subst hall
    obtain ⟨b₁, hb₁, hmoved⟩ : ∃ b₁,
        b.moveThreads host name option source target "all" trigger time = .ok b₁ ∧
          Moved host option target a ((b.names host).filter fun u =>
            (b.thd? u).map Thd.state = some source) b b₁ :=
      moveThreads_all hoption htime hknown.described hknown.nodup
    obtain rfl := Except.ok.inj (hb₁.symm.trans h)
    refine ⟨_, hmoved, (names_nodup hknown.nodup).filter _, ?_⟩
    intro u
    simp only [List.mem_filter, mem_names, ← thd?_isSome_iff, decide_eq_true_eq]
    constructor
    · rintro ⟨hu, hstate⟩
      obtain ⟨thd, hthd⟩ := Option.isSome_iff_exists.mp hu
      refine ⟨thd, hthd, Or.inr ⟨rfl, ?_⟩⟩
      simpa [hthd] using hstate
    · rintro ⟨thd, hthd, hnamed⟩
      refine ⟨by simp [hthd], ?_⟩
      rcases hnamed with huid | ⟨-, hstate⟩
      · obtain ⟨thread, -, rfl, -⟩ := hknown.thread u thd hthd
        rw [uid_of_thd? hthd] at huid
        exact absurd huid (host.uid_ne_all thread)
      · simp [hthd, hstate]
  · have hfound : ∃ thd, b.thd? uid = some thd := by
      simp only [moveThreads, if_neg hall] at h
      split at h
      · exact ⟨_, ‹_›⟩
      · cases h
    obtain ⟨thd, hthd⟩ := hfound
    obtain ⟨b₁, hb₁, hmoved⟩ : ∃ b₁,
        b.moveThreads host name option source target uid trigger time = .ok b₁ ∧
          Moved host option target a [uid] b b₁ :=
      moveThreads_one hoption htime hall hknown.described hthd
    obtain rfl := Except.ok.inj (hb₁.symm.trans h)
    refine ⟨_, hmoved, List.nodup_singleton uid, ?_⟩
    intro u
    rw [List.mem_singleton]
    constructor
    · rintro rfl
      exact ⟨thd, hthd, Or.inl (uid_of_thd? hthd)⟩
    · rintro ⟨thd', hthd', hnamed⟩
      rcases hnamed with huid | ⟨huid, -⟩
      · exact (uid_of_thd? hthd').symm.trans huid
      · exact absurd huid hall

/-! ### Skips -/

/-- Commands for cycles from a time on, in the order of these. -/
structure Delayed (time : Nat) (cs : List Command) : Prop where
  trigger : ∀ c ∈ cs, c.trigger = .cycleOnce
  le : ∀ c ∈ cs, time ≤ c.count.toNat
  sorted : cs.Pairwise fun c d => c.count.toNat ≤ d.count.toNat

/-- All commands are for one cycle. -/
def ForCycle (time : Nat) (cs : List Command) : Prop :=
  ∀ c ∈ cs, c.trigger = .cycleOnce ∧ c.count.toNat = min time (2 ^ 64 - 1)

theorem forCycle_map {α : Type} (f : α → WorkKind) (l : List α) (time : Nat) :
    ForCycle time (l.map fun x => (ActionTime.later .cycleOnce (scanned time)).command (f x)) := by
  intro c hc
  obtain ⟨x, -, rfl⟩ := List.mem_map.mp hc
  exact ⟨rfl, toNat_scanned time⟩

theorem ForCycle.delayed {time : Nat} {cs : List Command} (h : ForCycle time cs)
    (htime : time < 2 ^ 64) : Delayed time cs where
  trigger c hc := (h c hc).1
  le c hc := by
    have hcount := (h c hc).2
    omega
  sorted := List.pairwise_of_forall_mem_list fun c hc d hd => by
    rw [(h c hc).2, (h d hd).2]

theorem Delayed.append {time time' : Nat} {cs cs' : List Command} (h : Delayed time cs)
    (h' : ForCycle time' cs') (hle : time ≤ time') (htime : time < 2 ^ 64)
    (hbefore : ∀ c ∈ cs, c.count.toNat ≤ min time' (2 ^ 64 - 1)) : Delayed time (cs ++ cs') where
  trigger c hc := by
    rcases List.mem_append.mp hc with hc | hc
    · exact h.trigger c hc
    · exact (h' c hc).1
  le c hc := by
    rcases List.mem_append.mp hc with hc | hc
    · exact h.le c hc
    · rw [(h' c hc).2]
      omega
  sorted := by
    apply List.pairwise_append.mpr
    refine ⟨h.sorted, ?_, ?_⟩
    · exact List.pairwise_of_forall_mem_list fun c hc d hd => by rw [(h' c hc).2, (h' d hd).2]
    · intro c hc d hd
      rw [(h' d hd).2]
      exact hbefore c hc

/-- What a skip queues for a thread. -/
def skipActs : List (List Act) := [[], [.unsched, .skip, .sched], [.unsched, .sched], [.skip]]

/-- A skip queued delayed actions, and left the threads as they were. -/
structure Skipped (host : Host) (uid : String) (cs : List Command) (b b' : Bench) : Prop where
  queued : Queued b cs b'
  delayed : Delayed (b.pmControl .cycle) cs
  thd? : ∀ u, b'.thd? u = b.thd? u
  uids : b'.threads.map Thd.uid = b.threads.map Thd.uid
  acts : ∀ thread, Workbench.acts thread (cs.map Command.kind) ∈ skipActs
  named : ∀ thread, Workbench.acts thread (cs.map Command.kind) ≠ [] →
    (b.thd? (host.uid thread)).isSome = true ∧ (uid = "all" ∨ uid = host.uid thread)

theorem skipThread_skips {inst : Nat} {markerID : Int} {time : Nat}
    (hunique : Function.Injective host.threadUid) (hknown : Known host b)
    (h : b.skipThread host uid inst markerID "cycle_once" time = .ok b') :
    ∃ cs, Queued b cs b' ∧ b'.threads = b.threads ∧ ForCycle time cs ∧
      (uid ≠ "all" → (b.thd? uid).isSome = true) ∧
      ∀ thread, acts thread (cs.map Command.kind) =
        if uid ≠ "all" ∧ uid = host.uid thread then [.skip] else [] := by
  have htime : decodeActionTime "cycle_once" (some (toString time)) =
      some (.later .cycleOnce (scanned time)) := decodeActionTime_stopAction .cycle time
  have hone : ∀ kind, ForCycle time [(ActionTime.later .cycleOnce (scanned time)).command kind] :=
    fun kind => forCycle_map id [kind] time
  by_cases hall : uid = "all"
  · subst hall
    rw [skipThread, if_pos rfl] at h
    simp only at h
    split_ifs at h with hidle
    · have hskip : Awb.Classic.skipThread host.toEnvironment "all" = some none := by
        rw [Awb.Classic.skipThread, if_pos (by decide)]
      rw [pmSchedule_skip hskip htime] at h
      obtain rfl := Except.ok.inj h
      refine ⟨_, queued_command b _, rfl, hone _, by simp, ?_⟩
      intro thread
      rw [if_neg (by simp)]
      rfl
    · obtain rfl := Except.ok.inj h
      refine ⟨[], Queued.refl b, rfl, by simp [ForCycle], by simp, ?_⟩
      intro thread
      rw [if_neg (by simp)]
      rfl
  · rw [skipThread, if_neg hall] at h
    split at h
    · rename_i thd hthd
      obtain ⟨thread', hne, rfl, hdesc⟩ := hknown.thread uid thd hthd
      have hskip : Awb.Classic.skipThread host.toEnvironment thd.desc = some (some thread') := by
        have hnot : ¬ thd.desc.toList.map Char.toLower = "all".toList := by
          rw [hdesc, Host.desc, String.toList_append]
          simp
        rw [Awb.Classic.skipThread, if_neg hnot, hdesc, host.pmThreadDescToPtr_desc hne]
        rfl
      rw [pmSchedule_skip hskip htime] at h
      obtain rfl := Except.ok.inj h
      refine ⟨_, queued_command b _, rfl, hone _, fun _ => by simp [hthd], ?_⟩
      intro thread
      have hact : acts thread [skipKind host (some thread') (toString inst) (toString markerID)] =
          if thread' = thread then [.skip] else [] := by
        by_cases heq : thread' = thread
        · simp [acts, skipKind, actFor, heq]
        · simp [acts, skipKind, actFor, heq]
      refine hact.trans ?_
      simp only [(host.uid_injective hunique).eq_iff, ne_eq, hall, not_false_eq_true, true_and]
    · cases h

/-- Between two commands all threads are recorded as running. -/
def AllRunning (b : Bench) : Prop := ∀ u thd, b.thd? u = some thd → thd.state = .running

theorem awbSkip_skips {inst : Nat} {markerID : Int} (hunique : Function.Injective host.threadUid)
    (hknown : Known host b) (hrunning : AllRunning b)
    (h : b.awbSkip host uid inst markerID = .ok b') : ∃ cs, Skipped host uid cs b b' := by
  have htime : ∀ n, decodeActionTime "cycle_once" (some (toString n)) =
      some (.later .cycleOnce (scanned n)) := decodeActionTime_stopAction .cycle
  unfold awbSkip at h
  obtain ⟨b₁, hb₁, h⟩ := Except.bind_eq_ok.mp h
  obtain ⟨b₂, hb₂, h⟩ := Except.bind_eq_ok.mp h
  obtain ⟨us, hmoved, hus, hfirst⟩ := moveThreads_moved (Or.inr rfl) (htime _) hunique hknown hb₁
  have hknown₁ : Known host b₁ := hknown.moved hmoved
  obtain ⟨cs, hqueued, hthreads, hcycle, hfound, hskip⟩ := skipThread_skips hunique hknown₁ hb₂
  have hthd₂ : ∀ u, b₂.thd? u = b₁.thd? u := fun u => by simp only [Bench.thd?, hthreads]
  have hknown₂ : Known host b₂ := hknown₁.of_threads hthreads
  obtain ⟨us', hmoved', hus', hlast⟩ := moveThreads_moved (Or.inl rfl) (htime _) hunique hknown₂ h
  -- the threads that were unscheduled are those that are scheduled
  have hsame : ∀ u, u ∈ us' ↔ u ∈ us := by
    intro u
    rw [hus', hus, hthd₂, hmoved.thd?]
    constructor
    · rintro ⟨thd, hthd, hnamed⟩
      obtain ⟨thd', hthd', rfl⟩ := Option.map_eq_some_iff.mp hthd
      refine ⟨thd', hthd', ?_⟩
      rcases hnamed with huid | ⟨hall, -⟩
      · left
        split_ifs at huid
        · exact huid
        · exact huid
      · exact Or.inr ⟨hall, hrunning u thd' hthd'⟩
    · rintro ⟨thd, hthd, hnamed⟩
      have hu : u ∈ us := (hus u).mpr ⟨thd, hthd, hnamed⟩
      refine ⟨{ thd with state := .idle }, by simp [hthd, hu], ?_⟩
      rcases hnamed with huid | ⟨hall, -⟩
      · exact Or.inl huid
      · exact Or.inr ⟨hall, rfl⟩
  have hcounts : b.pmControl .cycle < 2 ^ 64 := UInt64.toNat_lt _
  have hmem : uid ≠ "all" → uid ∈ us := by
    intro hall
    have hsome := hfound hall
    rw [hmoved.thd?, Option.isSome_map] at hsome
    obtain ⟨thd, hthd⟩ := Option.isSome_iff_exists.mp hsome
    exact (hus uid).mpr ⟨thd, hthd, Or.inl (uid_of_thd? hthd)⟩
  have hnone : ∀ thread, host.uid thread ∉ us → ¬ (uid ≠ "all" ∧ uid = host.uid thread) :=
    fun thread hu h => hu (h.2 ▸ hmem h.1)
  refine ⟨_, (hmoved.queued.trans hqueued).trans hmoved'.queued, ?_, ?_, ?_, ?_, ?_⟩
  · have h₁ := forCycle_map (fun u => threadKind "unschedthread" (b.pointer host u)) us
      (b.pmControl .cycle)
    have h₃ := forCycle_map (fun u => threadKind "schedthread" (b₂.pointer host u)) us'
      (b.pmControl .cycle + 2)
    apply ((h₁.delayed hcounts).append hcycle (by omega) hcounts ?_).append h₃ (by omega) hcounts
    · intro c hc
      rcases List.mem_append.mp hc with hc | hc
      · rw [(h₁ c hc).2]
        omega
      · rw [(hcycle c hc).2]
        omega
    · intro c hc
      rw [(h₁ c hc).2]
      omega
  · intro u
    rw [hmoved'.thd?, hthd₂, hmoved.thd?, Option.map_map]
    cases hthd : b.thd? u with
    | none => rfl
    | some thd =>
      have hstate := hrunning u thd hthd
      by_cases hu : u ∈ us
      · have hu' := (hsame u).mpr hu
        simp [hu, hu', ← hstate]
      · have hu' : u ∉ us' := fun h => hu ((hsame u).mp h)
        simp [hu, hu']
  · rw [hmoved'.uids, hthreads, hmoved.uids]
  · intro thread
    rw [List.map_append, List.map_append, acts_append, acts_append, hfirst, hlast, hskip]
    simp only [hsame]
    by_cases hu : host.uid thread ∈ us
    · rw [if_pos hu, if_pos hu]
      split_ifs <;> decide
    · rw [if_neg hu, if_neg hu, if_neg (hnone thread hu)]
      decide
  · intro thread hne
    rw [List.map_append, List.map_append, acts_append, acts_append, hfirst, hlast, hskip] at hne
    simp only [hsame] at hne
    by_cases hu : host.uid thread ∈ us
    · obtain ⟨thd, hthd, hnamed⟩ := (hus _).mp hu
      refine ⟨by simp [hthd], ?_⟩
      rcases hnamed with huid | ⟨hall, -⟩
      · exact Or.inr (huid.symm.trans (uid_of_thd? hthd))
      · exact Or.inl hall
    · rw [if_neg hu, if_neg hu, if_neg (hnone thread hu)] at hne
      exact absurd rfl hne

theorem changeThreadState_ok {state : ThdState} (h : b.changeThreadState uid state = .ok b') :
    Queued b [] b' ∧ b'.threads.map Thd.uid = b.threads.map Thd.uid ∧
      ∀ u, b'.thd? u = (b.thd? u).map fun thd =>
        if uid = "all" ∨ u = uid then { thd with state } else thd := by
  unfold changeThreadState at h
  split_ifs at h with hall
  · obtain rfl := Except.ok.inj h
    refine ⟨⟨rfl, by simp, rfl, rfl, rfl, rfl⟩, ?_, ?_⟩
    · simp only [List.map_map]
      rfl
    · intro u
      simp only [Bench.thd?, List.find?_map, hall, true_or, if_true]
      rfl
  · split at h
    · rename_i thd hthd
      obtain rfl := Except.ok.inj h
      refine ⟨⟨rfl, by simp [setThdState], rfl, rfl, rfl, rfl⟩, ?_, ?_⟩
      · simp only [setThdState, List.map_map]
        apply List.map_congr_left
        intro thd' _
        simp only [Function.comp_apply]
        split_ifs <;> rfl
      · intro u
        rw [thd?_setThdState, uid_of_thd? hthd]
        simp only [hall, false_or]
    · cases h

theorem awbNewSkip_skips {inst : Nat} {markerID : Int}
    (hunique : Function.Injective host.threadUid) (hknown : Known host b)
    (hrunning : AllRunning b) (h : b.awbNewSkip host uid inst markerID = .ok b') :
    ∃ cs, Skipped host uid cs b b' := by
  unfold awbNewSkip at h
  obtain ⟨b₁, hb₁, h⟩ := Except.bind_eq_ok.mp h
  obtain ⟨b₂, hb₂, h⟩ := Except.bind_eq_ok.mp h
  obtain ⟨hqueued₁, huids₁, hthd₁⟩ := changeThreadState_ok hb₁
  have hknown₁ : Known host b₁ := hknown.of_thd? huids₁ hthd₁
  obtain ⟨cs, hqueued₂, hthreads, hcycle, hfound, hskip⟩ := skipThread_skips hunique hknown₁ hb₂
  obtain ⟨hqueued₃, huids₃, hthd₃⟩ := changeThreadState_ok h
  have hthd₂ : ∀ u, b₂.thd? u = b₁.thd? u := fun u => by simp only [Bench.thd?, hthreads]
  have hqueued := (hqueued₁.trans hqueued₂).trans hqueued₃
  rw [List.nil_append, List.append_nil] at hqueued
  refine ⟨cs, hqueued, hcycle.delayed (UInt64.toNat_lt _), ?_, ?_, ?_, ?_⟩
  · intro u
    rw [hthd₃, hthd₂, hthd₁, Option.map_map]
    cases hthd : b.thd? u with
    | none => rfl
    | some thd =>
      have hstate := hrunning u thd hthd
      by_cases hu : uid = "all" ∨ u = uid
      · simp [hu, ← hstate]
      · simp [hu]
  · rw [huids₃, hthreads, huids₁]
  · intro thread
    rw [hskip]
    split_ifs <;> decide
  · intro thread hne
    rw [hskip] at hne
    by_cases hone : uid ≠ "all" ∧ uid = host.uid thread
    · have hsome := hfound hone.1
      rw [hthd₁, Option.isSome_map, hone.2] at hsome
      exact ⟨hsome, Or.inr hone.2⟩
    · rw [if_neg hone] at hne
      exact absurd rfl hne

/-! ### Threads that begin and end -/

/-- All commands are for now. -/
def ForNow (cs : List Command) : Prop := ∀ c ∈ cs, c.trigger = .now ∧ c.count = 0

theorem forNow_map {α : Type} (f : α → WorkKind) (l : List α) :
    ForNow (l.map fun x => ActionTime.now.command (f x)) := by
  intro c hc
  obtain ⟨x, -, rfl⟩ := List.mem_map.mp hc
  exact ⟨rfl, rfl⟩

theorem decodeActionTime_now : decodeActionTime "now" (some (toString 0)) = some .now := rfl

/-- No thread is scheduled by a null pointer. -/
theorem pmSchedule_null {trigger time : String} :
    b.pmSchedule host ["schedthread", host.desc 0, trigger, time] ≠ .ok b' := by
  have hnull : pmThreadDescToPtr host.toEnvironment (host.desc 0) = none := by
    have hstarts : "THREAD__".toList.isPrefixOf (host.desc 0).toList = true := by
      simp [Host.desc, String.toList_append]
    have hdrop : (host.desc 0).toList.drop 8 = (host.printPointer 0).toList := by
      simp [Host.desc, String.toList_append]
    rw [pmThreadDescToPtr, if_pos hstarts, hdrop, host.scan_print]
    rfl
  have hcmd : pmScheduleCmd host.toEnvironment b.loop.toController
      ["PmSchedule", "schedthread", host.desc 0, trigger, time] =
    threadCmd host.toEnvironment b.loop.toController
      "Usage: PmSchedule schedthread ?thread? ?action? ?time?" .thdSched
      [host.desc 0, trigger, time] := rfl
  intro h
  rw [pmSchedule, hcmd] at h
  simp [threadCmd, hnull] at h

/-- The record of a thread that begins. -/
def begun (host : Host) (thread : Thread) (b : Bench) : Bench :=
  { b with threads := b.threads ++ [Thd.mk (host.uid thread) (host.desc thread) .idle] }

theorem thd?_begun (hnone : b.thd? (host.uid thread) = none) (u : String) :
    (b.begun host thread).thd? u = if u = host.uid thread then
      some ⟨host.uid thread, host.desc thread, .idle⟩ else b.thd? u := by
  rw [begun, thd?, List.find?_append]
  by_cases hu : u = host.uid thread
  · subst hu
    have hfind : b.threads.find? (fun thd => thd.uid = host.uid thread) = none := hnone
    rw [hfind, if_pos rfl]
    simp
  · rw [if_neg hu]
    have hlast : ([Thd.mk (host.uid thread) (host.desc thread) .idle].find? fun thd =>
        thd.uid = u) = none := by
      simpa using fun h => hu h.symm
    rw [hlast, Option.or_none]
    rfl

theorem Known.begun (hknown : Known host b) (hthread : thread ≠ 0)
    (hnone : b.thd? (host.uid thread) = none) : Known host (b.begun host thread) where
  thread u thd hthd := by
    rw [thd?_begun hnone] at hthd
    split_ifs at hthd with hu
    · obtain rfl := Option.some.inj hthd
      exact ⟨thread, hthread, hu, rfl⟩
    · exact hknown.thread u thd hthd
  nodup := by
    rw [Bench.begun, List.map_append, List.map_singleton]
    refine List.nodup_append.mpr ⟨hknown.nodup, List.nodup_singleton _, ?_⟩
    rintro u hu u' hu' rfl
    obtain rfl := List.mem_singleton.mp hu'
    rw [← thd?_isSome_iff, hnone] at hu
    cases hu

/-- The workbench schedules the thread that begins. -/
theorem threadBegin_begins (hunique : Function.Injective host.threadUid) (hknown : Known host b)
    (h : b.threadBegin host (host.uid thread) (host.desc thread) = .ok b') :
    b.thd? (host.uid thread) = none ∧ Known host b' ∧
      (∀ u, b'.thd? u = if u = host.uid thread then
        some ⟨host.uid thread, host.desc thread, .running⟩ else b.thd? u) ∧
      ∃ cs, Queued b cs b' ∧ ForNow cs ∧
        ∀ t, acts t (cs.map Command.kind) = if t = thread then [.sched] else [] := by
  obtain ⟨hnone, -, h⟩ := threadBegin_ok h
  have hbegun : (b.begun host thread).scheduleThread host (host.uid thread) "now" 0 = .ok b' := h
  have hthread : thread ≠ 0 := by
    rintro rfl
    have hthd := thd?_begun hnone (host.uid 0)
    rw [if_pos rfl] at hthd
    simp only [scheduleThread, moveThreads, if_neg (host.uid_ne_all 0), hthd, moveThread] at hbegun
    obtain ⟨b₁, hb₁, -⟩ := Except.bind_eq_ok.mp hbegun
    exact pmSchedule_null hb₁
  have hknown₀ := hknown.begun hthread hnone
  obtain ⟨us, hmoved, hus, hacts⟩ :=
    moveThreads_moved (Or.inl rfl) decodeActionTime_now hunique hknown₀ hbegun
  have hmem : ∀ u, u ∈ us ↔ u = host.uid thread := by
    intro u
    rw [hus]
    constructor
    · rintro ⟨thd, hthd, huid | ⟨hall, -⟩⟩
      · exact (uid_of_thd? hthd).symm.trans huid
      · exact absurd hall (host.uid_ne_all thread)
    · rintro rfl
      exact ⟨_, (thd?_begun hnone _).trans (if_pos rfl), Or.inl rfl⟩
  refine ⟨hnone, hknown₀.moved hmoved, ?_, _, ?_, forNow_map (fun u =>
    threadKind "schedthread" ((b.begun host thread).pointer host u)) us, ?_⟩
  · intro u
    rw [hmoved.thd?, thd?_begun hnone]
    by_cases hu : u = host.uid thread
    · rw [if_pos hu, if_pos hu, Option.map_some, if_pos ((hmem u).mpr hu)]
    · rw [if_neg hu, if_neg hu]
      cases b.thd? u with
      | none => rfl
      | some thd => rw [Option.map_some, if_neg fun h => hu ((hmem u).mp h)]
  · exact ⟨hmoved.queued.loop, hmoved.queued.sysBreak, hmoved.queued.pendingProgress,
      hmoved.queued.bmCmds, hmoved.queued.bmStop, hmoved.queued.processing⟩
  · intro t
    simp only [hacts, hmem, (host.uid_injective hunique).eq_iff]
    rfl

/-- The workbench unschedules the thread that ends, and exits after the last one. -/
theorem threadEnd_ends {u : String} (hunique : Function.Injective host.threadUid)
    (hknown : Known host b) (h : b.threadEnd host u = .ok b') :
    (b.thd? u).isSome = true ∧ Known host b' ∧
      (∀ u', b'.thd? u' = if u' = u then none else b.thd? u') ∧
      ∃ cs, Queued b cs b' ∧ ForNow cs ∧
        ∀ t, acts t (cs.map Command.kind) = if host.uid t = u then [.unsched] else [] := by
  obtain ⟨b₁, hsome, hb₁, -, b₂, hb₂, hend⟩ := threadEnd_ok h
  have hu : u ≠ "all" := by
    rintro rfl
    obtain ⟨thd, hthd⟩ := Option.isSome_iff_exists.mp hsome
    obtain ⟨thread, -, huid, -⟩ := hknown.thread _ thd hthd
    exact host.uid_ne_all thread huid.symm
  obtain ⟨us, hmoved, hus, hacts⟩ :=
    moveThreads_moved (Or.inr rfl) decodeActionTime_now hunique hknown hb₁
  have hmem : ∀ u', u' ∈ us ↔ u' = u := by
    intro u'
    rw [hus]
    constructor
    · rintro ⟨thd, hthd, huid | ⟨hall, -⟩⟩
      · exact (uid_of_thd? hthd).symm.trans huid
      · exact absurd hall hu
    · rintro rfl
      obtain ⟨thd, hthd⟩ := Option.isSome_iff_exists.mp hsome
      exact ⟨thd, hthd, Or.inl (uid_of_thd? hthd)⟩
  have hthd₂ : ∀ u', b₂.thd? u' = if u' = u then none else b.thd? u' := by
    intro u'
    rw [hb₂, thd?, List.find?_filter]
    by_cases heq : u' = u
    · subst heq
      rw [if_pos rfl]
      simp
    · have hkept : (fun thd : Thd => decide (decide (thd.uid ≠ u) = true ∧
          decide (thd.uid = u') = true)) = fun thd => decide (thd.uid = u') := by
        funext thd
        by_cases huid : thd.uid = u'
        · simp [huid, heq]
        · simp [huid]
      have hnot : u' ∉ us := fun h => heq ((hmem u').mp h)
      have hsame : b₁.thd? u' = b.thd? u' := by
        rw [hmoved.thd?]
        simp only [if_neg hnot, Option.map_id']
      rw [hkept, if_neg heq]
      exact hsame
  have hknown₂ : Known host b₂ := by
    constructor
    · intro u' thd hthd
      rw [hthd₂] at hthd
      split_ifs at hthd
      exact hknown.thread u' thd hthd
    · rw [hb₂]
      have hnodup : (b₁.threads.map Thd.uid).Nodup := (hknown.moved hmoved).nodup
      exact hnodup.sublist (List.filter_sublist.map Thd.uid)
  have hqueued : Queued b (us.map fun u =>
      ActionTime.now.command (threadKind "unschedthread" (b.pointer host u))) b₂ := by
    rw [hb₂]
    exact ⟨hmoved.queued.loop, hmoved.queued.sysBreak, hmoved.queued.pendingProgress,
      hmoved.queued.bmCmds, hmoved.queued.bmStop, hmoved.queued.processing⟩
  have hnow := forNow_map (fun u => threadKind "unschedthread" (b.pointer host u)) us
  have hacts' : ∀ t, acts t ((us.map fun u =>
      ActionTime.now.command (threadKind "unschedthread" (b.pointer host u))).map Command.kind) =
        if host.uid t = u then [.unsched] else [] := by
    intro t
    simp only [hacts, hmem]
    rfl
  rcases hend with ⟨-, rfl⟩ | ⟨-, rfl⟩
  · exact ⟨hsome, hknown₂, hthd₂, _, hqueued, hnow, hacts'⟩
  · refine ⟨hsome, hknown₂.of_threads rfl, hthd₂, _, (hqueued.trans
      (queued_command b₂ exitCommand)).trans (queued_command _ startCommand), ?_, ?_⟩
    · intro c hc
      rcases List.mem_append.mp hc with hc | hc
      · rcases List.mem_append.mp hc with hc | hc
        · exact hnow c hc
        · obtain rfl := List.mem_singleton.mp hc
          exact ⟨rfl, rfl⟩
      · obtain rfl := List.mem_singleton.mp hc
        exact ⟨rfl, rfl⟩
    · intro t
      rw [List.map_append, List.map_append, acts_append, acts_append, hacts']
      simp [acts, exitCommand, startCommand, ActionTime.command, actFor]

end Bench

end Awb.Workbench
