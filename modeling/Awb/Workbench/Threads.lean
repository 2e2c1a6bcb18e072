import Awb.Workbench.Commands

/-! The procedures that move threads: which threads they schedule or unschedule, in which order,
and the states they record. -/

namespace Awb.Workbench
open Awb.Classic

namespace Bench
variable {host : Host} {b b' b'' : Bench} {cs cs' : List Command} {u uid : String}

/-- Commands that went to the controller, while the rest of the workbench but its threads stays. -/
structure Queued (b : Bench) (cs : List Command) (b' : Bench) : Prop where
  loop : b'.loop = cs.foldl LoopState.arrive b.loop
  sysBreak : b'.sysBreak = (b.sysBreak || !cs.isEmpty)
  pendingProgress : b'.pendingProgress = b.pendingProgress
  bmCmds : b'.bmCmds = b.bmCmds
  bmStop : b'.bmStop = b.bmStop
  processing : b'.processing = b.processing

theorem Queued.refl (b : Bench) : Queued b [] b := ⟨rfl, by simp, rfl, rfl, rfl, rfl⟩

theorem queued_command_threads (b : Bench) (c : Command) (threads : List Thd) :
    Queued b [c] { b.command c with threads } := ⟨rfl, by simp [command], rfl, rfl, rfl, rfl⟩

theorem queued_command (b : Bench) (c : Command) : Queued b [c] (b.command c) :=
  queued_command_threads b c b.threads

theorem Queued.trans (h : Queued b cs b') (h' : Queued b' cs' b'') :
    Queued b (cs ++ cs') b'' where
  loop := by rw [h'.loop, h.loop, List.foldl_append]
  sysBreak := by
    rw [h'.sysBreak, h.sysBreak]
    cases cs <;> simp
  pendingProgress := h'.pendingProgress.trans h.pendingProgress
  bmCmds := h'.bmCmds.trans h.bmCmds
  bmStop := h'.bmStop.trans h.bmStop
  processing := h'.processing.trans h.processing

theorem uid_of_thd? {thd : Thd} (h : b.thd? u = some thd) : thd.uid = u := by
  simpa using List.find?_some h

theorem thd?_setThdState (state : ThdState) : (b.setThdState uid state).thd? u =
    (b.thd? u).map fun thd => if u = uid then { thd with state } else thd := by
  have hkeep : ((fun thd : Thd => decide (thd.uid = u)) ∘ fun thd : Thd =>
      if thd.uid = uid then { thd with state } else thd) = fun thd => decide (thd.uid = u) := by
    funext thd
    simp only [Function.comp_apply]
    split_ifs <;> rfl
  unfold thd? setThdState
  rw [List.find?_map, hkeep]
  apply Option.map_congr
  intro thd hthd
  have hu : thd.uid = u := by simpa using List.find?_some hthd
  rw [hu]

@[simp] theorem thd?_command (c : Command) : (b.command c).thd? u = b.thd? u := rfl

theorem thd?_isSome_iff : (b.thd? u).isSome = true ↔ u ∈ b.threads.map Thd.uid := by
  simp only [thd?, List.find?_isSome, decide_eq_true_eq, List.mem_map]

/-- The thread that a known uid stands for. -/
def pointer (host : Host) (b : Bench) (u : String) : Thread :=
  ((b.thd? u).bind fun thd => pmThreadDescToPtr host.toEnvironment thd.desc).getD 0

/-- The descriptors of all threads can be read. -/
def Described (host : Host) (b : Bench) : Prop :=
  ∀ u thd, b.thd? u = some thd → ∃ thread, pmThreadDescToPtr host.toEnvironment thd.desc = some thread

theorem Described.pointer (h : Described host b) {thd : Thd} (hthd : b.thd? u = some thd) :
    pmThreadDescToPtr host.toEnvironment thd.desc = some (b.pointer host u) := by
  obtain ⟨thread, hthread⟩ := h u thd hthd
  rw [Bench.pointer, hthd, Option.bind_some, hthread, Option.getD_some]

/-- Some threads were moved, in this order. -/
structure Moved (host : Host) (option : String) (target : ThdState) (a : ActionTime)
    (us : List String) (b b' : Bench) : Prop where
  queued : Queued b (us.map fun u => a.command (threadKind option (b.pointer host u))) b'
  thd? : ∀ u, b'.thd? u = (b.thd? u).map fun thd =>
    if u ∈ us then { thd with state := target } else thd
  uids : b'.threads.map Thd.uid = b.threads.map Thd.uid

namespace Moved
variable {option : String} {target : ThdState} {a : ActionTime} {us us' : List String}

theorem refl (host : Host) (option : String) (target : ThdState) (a : ActionTime) (b : Bench) :
    Moved host option target a [] b b where
  queued := Queued.refl b
  thd? u := by simp
  uids := rfl

theorem pointer_eq (h : Moved host option target a us b b') (u : String) :
    b'.pointer host u = b.pointer host u := by
  unfold pointer
  rw [h.thd? u]
  cases hthd : b.thd? u with
  | none => rfl
  | some thd =>
    simp only [Option.map_some, Option.bind_some]
    split_ifs <;> rfl

theorem described (h : Moved host option target a us b b') (hb : Described host b) :
    Described host b' := by
  intro u thd hthd
  rw [h.thd? u] at hthd
  obtain ⟨thd', hthd', rfl⟩ := Option.map_eq_some_iff.mp hthd
  obtain ⟨thread, hthread⟩ := hb u thd' hthd'
  refine ⟨thread, ?_⟩
  split_ifs <;> exact hthread

theorem trans (h : Moved host option target a us b b') (h' : Moved host option target a us' b' b'') :
    Moved host option target a (us ++ us') b b'' where
  queued := by
    have hsame : (us'.map fun u => a.command (threadKind option (b'.pointer host u))) =
        us'.map fun u => a.command (threadKind option (b.pointer host u)) := by
      simp only [h.pointer_eq]
    rw [List.map_append, ← hsame]
    exact h.queued.trans h'.queued
  thd? u := by
    rw [h'.thd? u, h.thd? u, Option.map_map]
    apply Option.map_congr
    intro thd _
    simp only [Function.comp_apply, List.mem_append]
    by_cases hu : u ∈ us <;> by_cases hu' : u ∈ us' <;> simp [hu, hu']
  uids := h'.uids.trans h.uids

end Moved

section
variable {option name trigger : String} {source target : ThdState} {a : ActionTime} {time : Nat}

/-- A known thread is moved whatever state it is in. -/
theorem moveThread_moved (hoption : option = "schedthread" ∨ option = "unschedthread")
    (htime : decodeActionTime trigger (some (toString time)) = some a)
    (hdesc : Described host b) {thd : Thd} (hthd : b.thd? u = some thd) :
    ∃ b', b.moveThread host option target trigger time thd = .ok b' ∧
      Moved host option target a [u] b b' := by
  have hu : thd.uid = u := uid_of_thd? hthd
  refine ⟨(b.command (a.command (threadKind option (b.pointer host u)))).setThdState thd.uid
    target, ?_, ?_⟩
  · rw [moveThread, pmSchedule_thread hoption (hdesc.pointer hthd) htime]
    rfl
  · constructor
    · exact queued_command_threads b _ _
    · intro u'
      rw [thd?_setThdState, thd?_command, hu]
      simp only [List.mem_singleton]
    · simp only [setThdState, command, List.map_map]
      apply List.map_congr_left
      intro thd' _
      simp only [Function.comp_apply]
      split_ifs <;> rfl

/-- The body of the loop over all threads. -/
theorem moveThreads_loop (hoption : option = "schedthread" ∨ option = "unschedthread")
    (htime : decodeActionTime trigger (some (toString time)) = some a) {ns : List String}
    (hnodup : ns.Nodup) (hdesc : Described host b)
    (hknown : ∀ u ∈ ns, ∃ thd, b.thd? u = some thd) :
    ∃ b', ns.foldlM (fun b tn =>
        match b.thd? tn with
        | some thd =>
          if thd.state = source then b.moveThread host option target trigger time thd else .ok b
        | none => .error ("can't read \"threads(" ++ tn ++ ")\"")) b = .ok b' ∧
      Moved host option target a
        (ns.filter fun u => (b.thd? u).map Thd.state = some source) b b' := by
  induction ns generalizing b with
  | nil => exact ⟨b, rfl, Moved.refl host option target a b⟩
  | cons tn ns ih =>
    obtain ⟨htn, hns⟩ := List.nodup_cons.mp hnodup
    obtain ⟨thd, hthd⟩ := hknown tn List.mem_cons_self
    have hrest : ∀ u ∈ ns, ∃ thd, b.thd? u = some thd :=
      fun u hu => hknown u (List.mem_cons_of_mem tn hu)
    rw [List.foldlM_cons]
    by_cases hstate : thd.state = source
    · obtain ⟨b₁, hb₁, hmoved⟩ : ∃ b₁, b.moveThread host option target trigger time thd = .ok b₁ ∧
          Moved host option target a [tn] b b₁ := moveThread_moved hoption htime hdesc hthd
      -- the threads that are still to come are as they were
      have hsame : ∀ u ∈ ns, b₁.thd? u = b.thd? u := by
        intro u hu
        have hne' : u ≠ tn := fun h => htn (h ▸ hu)
        rw [hmoved.thd? u]
        simp [hne']
      have hknown₁ : ∀ u ∈ ns, ∃ thd, b₁.thd? u = some thd := by
        intro u hu
        rw [hsame u hu]
        exact hrest u hu
      obtain ⟨b₂, hb₂, hmoved₂⟩ := ih hns (hmoved.described hdesc) hknown₁
      refine ⟨b₂, ?_, ?_⟩
      · simp only [hthd, if_pos hstate, hb₁]
        exact hb₂
      · have hfilter : (ns.filter fun u => (b₁.thd? u).map Thd.state = some source) =
            ns.filter fun u => (b.thd? u).map Thd.state = some source := by
          apply List.filter_congr
          intro u hu
          rw [hsame u hu]
        rw [List.filter_cons_of_pos (by simp [hthd, hstate]), ← hfilter]
        exact hmoved.trans hmoved₂
    · obtain ⟨b₂, hb₂, hmoved₂⟩ := ih hns hdesc hrest
      refine ⟨b₂, ?_, ?_⟩
      · simp only [hthd, if_neg hstate]
        exact hb₂
      · rw [List.filter_cons_of_neg (by simp [hthd, hstate])]
        exact hmoved₂

theorem names_nodup (h : (b.threads.map Thd.uid).Nodup) : (b.names host).Nodup :=
  (host.arrayNames_perm _).nodup_iff.mpr h

theorem mem_names : u ∈ b.names host ↔ u ∈ b.threads.map Thd.uid :=
  (host.arrayNames_perm _).mem_iff

/-- All threads in one state are moved to the other. -/
theorem moveThreads_all (hoption : option = "schedthread" ∨ option = "unschedthread")
    (htime : decodeActionTime trigger (some (toString time)) = some a)
    (hdesc : Described host b) (hnodup : (b.threads.map Thd.uid).Nodup) :
    ∃ b', b.moveThreads host name option source target "all" trigger time = .ok b' ∧
      Moved host option target a
        ((b.names host).filter fun u => (b.thd? u).map Thd.state = some source) b b' := by
  rw [moveThreads, if_pos rfl]
  apply moveThreads_loop hoption htime (names_nodup hnodup) hdesc
  intro u hu
  exact Option.isSome_iff_exists.mp (thd?_isSome_iff.mpr (mem_names.mp hu))

/-- When all threads in one state were moved, all are in the other. -/
theorem Moved.state_all (h : Moved host option target a
      ((b.names host).filter fun u => (b.thd? u).map Thd.state = some source) b b')
    (hcover : ∀ s, s ≠ source → s = target) {thd : Thd} (hthd : b'.thd? u = some thd) :
    thd.state = target := by
  rw [h.thd? u] at hthd
  obtain ⟨thd', hthd', rfl⟩ := Option.map_eq_some_iff.mp hthd
  by_cases hstate : thd'.state = source
  · have hname : u ∈ b.names host :=
      mem_names.mpr (thd?_isSome_iff.mp (Option.isSome_iff_exists.mpr ⟨thd', hthd'⟩))
    rw [if_pos (List.mem_filter.mpr ⟨hname, by simp [hthd', hstate]⟩)]
  · rw [if_neg]
    · exact hcover thd'.state hstate
    · intro hu
      have hsource := (List.mem_filter.mp hu).2
      simp [hthd', hstate] at hsource

theorem moveThreads_one (hoption : option = "schedthread" ∨ option = "unschedthread")
    (htime : decodeActionTime trigger (some (toString time)) = some a) (huid : uid ≠ "all")
    (hdesc : Described host b) {thd : Thd} (hthd : b.thd? uid = some thd) :
    ∃ b', b.moveThreads host name option source target uid trigger time = .ok b' ∧
      Moved host option target a [uid] b b' := by
  simp only [moveThreads, if_neg huid, hthd]
  exact moveThread_moved hoption htime hdesc hthd

end

section
variable {trigger : String} {time : Nat} {a : ActionTime}

theorem unscheduleThread_all (htime : decodeActionTime trigger (some (toString time)) = some a)
    (hdesc : Described host b) (hnodup : (b.threads.map Thd.uid).Nodup) :
    ∃ b', b.unscheduleThread host "all" trigger time = .ok b' ∧
      Moved host "unschedthread" .idle a
        ((b.names host).filter fun u => (b.thd? u).map Thd.state = some .running) b b' :=
  moveThreads_all (Or.inr rfl) htime hdesc hnodup

theorem scheduleThread_all (htime : decodeActionTime trigger (some (toString time)) = some a)
    (hdesc : Described host b) (hnodup : (b.threads.map Thd.uid).Nodup) :
    ∃ b', b.scheduleThread host "all" trigger time = .ok b' ∧
      Moved host "schedthread" .running a
        ((b.names host).filter fun u => (b.thd? u).map Thd.state = some .idle) b b' :=
  moveThreads_all (Or.inl rfl) htime hdesc hnodup

theorem unscheduleThread_one (htime : decodeActionTime trigger (some (toString time)) = some a)
    (huid : uid ≠ "all") (hdesc : Described host b) {thd : Thd} (hthd : b.thd? uid = some thd) :
    ∃ b', b.unscheduleThread host uid trigger time = .ok b' ∧
      Moved host "unschedthread" .idle a [uid] b b' :=
  moveThreads_one (Or.inr rfl) htime huid hdesc hthd

theorem scheduleThread_one (htime : decodeActionTime trigger (some (toString time)) = some a)
    (huid : uid ≠ "all") (hdesc : Described host b) {thd : Thd} (hthd : b.thd? uid = some thd) :
    ∃ b', b.scheduleThread host uid trigger time = .ok b' ∧
      Moved host "schedthread" .running a [uid] b b' :=
  moveThreads_one (Or.inl rfl) htime huid hdesc hthd

end

end Bench

end Awb.Workbench
