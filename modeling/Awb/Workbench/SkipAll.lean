import Awb.Classic.Queues
import Awb.Workbench.Threads

/-! `AwbSkip all` and `AwbNewSkip all`: the queued item stands for all threads by a null pointer,
and the performance model skips on the feeder of that pointer. -/

namespace Awb.Workbench
open Awb.Classic

/-- What the processed ones of some items skipped: `THDSKIP` uses its thread as it is. -/
def skips (queued : WorkList) (tr : List Awb.Classic.Label) : List (Option Thread × UInt64) :=
  tr.filterMap fun l =>
    match l with
    | .process item _ _ =>
      if queued.contains item then
        match item.kind with
        | .thdSkip thread insts _ => some (thread, insts)
        | _ => none
      else none
    | _ => none

/-- All the items were processed, unless the null pointer was used before. -/
def Served (queued : WorkList) (tr : List Awb.Classic.Label) : Prop :=
  ∀ item ∈ queued, (∃ current rescheduled, Label.process item current rescheduled ∈ tr) ∨
    ∃ s ∈ skips queued tr, s.1 = none

/-- Each thread that was idle in `b` skipped its share of the instructions, and no other thread. -/
structure SkipsIdle (host : Host) (b : Bench) (inst : Nat) (queued : WorkList)
    (tr : List Awb.Classic.Label) : Prop where
  idle : (skips queued tr).Perm ((b.threads.filter Bench.isIdle).map fun thd =>
    (some (b.pointer host thd.uid), UInt64.ofNat (inst / b.threads.countP Bench.isIdle)))
  no_null : ∀ s ∈ skips queued tr, s.1 ≠ none

namespace Bench
variable {host : Host} {b b' : Bench} {cs : List Command}

/-- What was queued between two states of the workbench. -/
def queuedSince (b b' : Bench) : WorkList := b'.loop.ctrlWorkList.drop b.loop.ctrlWorkList.length

theorem Queued.exists_item (h : Queued b cs b') {c : Command} (hc : c ∈ cs) :
    ∃ item ∈ b.queuedSince b', item.kind = c.kind := by
  have hlist : b.queuedSince b' = items b.loop.nextId cs := by
    rw [queuedSince, h.loop, ctrlWorkList_commands, List.drop_left]
  have hkind : c.kind ∈ (b.queuedSince b').map WorkItem.kind := by
    rw [hlist, items_kinds]
    exact List.mem_map_of_mem hc
  exact List.mem_map.mp hkind

def isNullSkip (c : Command) : Prop := ∃ insts markerID, c.kind = .thdSkip none insts markerID

/-- With some idle thread a skip of all threads is one item with a null pointer. -/
theorem skipThread_all (hidle : ∃ thd ∈ b.threads, thd.state = .idle) (inst : Nat)
    (markerID : Int) (time : Nat) : ∃ c, isNullSkip c ∧
    b.skipThread host "all" inst markerID "cycle_once" time = .ok (b.command c) := by
  obtain ⟨thd, hthd, hstate⟩ := hidle
  have hcnt : b.threads.countP isIdle ≠ 0 := by
    have hpos : 0 < b.threads.countP isIdle := List.countP_pos_iff.mpr ⟨thd, hthd, by
      simp [isIdle, hstate]⟩
    omega
  have hall : Awb.Classic.skipThread host.toEnvironment "all" = some none := by
    rw [Awb.Classic.skipThread, if_pos (by decide)]
  rw [skipThread, if_pos rfl]
  simp only [if_pos hcnt]
  exact ⟨_, ⟨_, _, rfl⟩, pmSchedule_skip hall (decodeActionTime_stopAction .cycle time)⟩

/-- What is queued by a skip of all threads holds an item with the null pointer. -/
def NullQueued (b b' : Bench) : Prop :=
  ∃ item ∈ b.queuedSince b', ∃ insts markerID, item.kind = .thdSkip none insts markerID

theorem Queued.null (h : Queued b cs b') {c : Command} (hc : c ∈ cs) (hnull : isNullSkip c) :
    NullQueued b b' := by
  obtain ⟨item, hitem, hkind⟩ := h.exists_item hc
  obtain ⟨insts, markerID, hskip⟩ := hnull
  exact ⟨item, hitem, insts, markerID, hkind.trans hskip⟩

theorem awbSkip_all (hdesc : Described host b) (hnodup : (b.threads.map Thd.uid).Nodup)
    (hidle : ∃ thd ∈ b.threads, thd.state = .idle) (inst : Nat) (markerID : Int) :
    ∃ b', b.awbSkip host "all" inst markerID = .ok b' ∧ NullQueued b b' := by
  have htime : ∀ n, decodeActionTime "cycle_once" (some (toString n)) =
      some (.later .cycleOnce (scanned n)) := decodeActionTime_stopAction .cycle
  obtain ⟨b₁, hb₁, hmoved₁⟩ := unscheduleThread_all (htime (b.pmControl .cycle)) hdesc hnodup
  -- the running threads are idle now, and the idle ones still are
  have hidle₁ : ∃ thd ∈ b₁.threads, thd.state = .idle := by
    obtain ⟨thd, hthd, hstate⟩ := hidle
    have huid : thd.uid ∈ b₁.threads.map Thd.uid := by
      rw [hmoved₁.uids]
      exact List.mem_map_of_mem hthd
    obtain ⟨thd₁, hthd₁⟩ := Option.isSome_iff_exists.mp (thd?_isSome_iff.mpr huid)
    have hstate₁ : thd₁.state = .idle :=
      hmoved₁.state_all (fun s hs => by cases s <;> simp_all) hthd₁
    exact ⟨thd₁, List.mem_of_find?_eq_some hthd₁, hstate₁⟩
  obtain ⟨c, hnull, hb₂⟩ : ∃ c, isNullSkip c ∧ b₁.skipThread host "all" inst markerID "cycle_once"
      (b.pmControl .cycle + 1) = .ok (b₁.command c) := skipThread_all hidle₁ inst markerID _
  have hdesc₂ : Described host (b₁.command c) := hmoved₁.described hdesc
  have hnodup₂ : ((b₁.command c).threads.map Thd.uid).Nodup := hmoved₁.uids ▸ hnodup
  obtain ⟨b₃, hb₃, hmoved₃⟩ := scheduleThread_all (htime (b.pmControl .cycle + 2)) hdesc₂ hnodup₂
  refine ⟨b₃, ?_, ?_⟩
  · unfold awbSkip
    simp only [hb₁]
    change (b₁.skipThread host "all" inst markerID "cycle_once" (b.pmControl .cycle + 1) >>= _) = _
    rw [hb₂]
    exact hb₃
  · have hqueued := (hmoved₁.queued.trans (queued_command b₁ c)).trans hmoved₃.queued
    exact hqueued.null (by simp) hnull

theorem awbNewSkip_all (hidle : ∃ thd ∈ b.threads, thd.state = .idle) (inst : Nat)
    (markerID : Int) :
    ∃ b', b.awbNewSkip host "all" inst markerID = .ok b' ∧ NullQueued b b' := by
  have hidle₁ : ∃ thd ∈ b.threads.map fun thd => { thd with state := ThdState.idle },
      thd.state = .idle := by
    obtain ⟨thd, hthd, -⟩ := hidle
    exact ⟨_, List.mem_map_of_mem hthd, rfl⟩
  obtain ⟨c, hnull, hb₂⟩ : ∃ c, isNullSkip c ∧
      skipThread host "all" inst markerID "cycle_once" (b.pmControl .cycle)
        { b with threads := b.threads.map fun thd => { thd with state := .idle } } =
      .ok (command { b with threads := b.threads.map fun thd => { thd with state := .idle } } c) :=
    skipThread_all hidle₁ inst markerID _
  refine ⟨{ b.command c with threads :=
    (b.threads.map fun thd => { thd with state := .idle }).map fun thd =>
      { thd with state := .running } }, ?_, ?_⟩
  · unfold awbNewSkip
    simp only [changeThreadState, if_true]
    change (skipThread host "all" inst markerID "cycle_once" (b.pmControl .cycle) _ >>= _) = _
    rw [hb₂]
    rfl
  · exact (queued_command_threads b c _).null List.mem_cons_self hnull

end Bench

theorem skips_null {queued : WorkList} {tr : List Awb.Classic.Label} {item : WorkItem}
    {current : Counters} {rescheduled : Option Scheduled} {insts : UInt64} {markerID : Int}
    (hitem : item ∈ queued) (hkind : item.kind = .thdSkip none insts markerID)
    (h : Label.process item current rescheduled ∈ tr) : (none, insts) ∈ skips queued tr := by
  apply List.mem_filterMap.mpr
  refine ⟨_, h, ?_⟩
  simp [hitem, hkind]

/-- `AwbSkip all` and `AwbNewSkip all` skip no idle thread's share: whatever the threads, the
count and the run of the scheduler loop are, the null pointer is used. -/
theorem skip_all_uses_null (host : Host) (b : Bench) (hnodup : (b.threads.map Thd.uid).Nodup)
    (hdesc : b.Described host) (hidle : ∃ thd ∈ b.threads, thd.state = .idle) (inst : Nat)
    (markerID : Int) {cmd : Cmd}
    (hcmd : cmd = .awbSkip "all" inst markerID ∨ cmd = .awbNewSkip "all" inst markerID) :
    ∃ b', b.eval host cmd = .ok b' ∧ ∀ tr loop, Lts.Run Awb.Classic.Step b'.loop tr loop →
      Served (b.queuedSince b') tr → ¬ SkipsIdle host b inst (b.queuedSince b') tr := by
  have heval : ∃ b', b.eval host cmd = .ok b' ∧ b.NullQueued b' := by
    rcases hcmd with rfl | rfl
    · exact Bench.awbSkip_all hdesc hnodup hidle inst markerID
    · exact Bench.awbNewSkip_all hidle inst markerID
  obtain ⟨b', hb', item, hitem, insts, markerID', hkind⟩ := heval
  refine ⟨b', hb', ?_⟩
  intro tr loop _ hserved hskips
  rcases hserved item hitem with ⟨current, rescheduled, hprocess⟩ | ⟨s, hs, hnull⟩
  · exact hskips.no_null _ (skips_null hitem hkind hprocess) rfl
  · exact hskips.no_null s hs hnull

/-- In front of a stopped model at cycle 0, thread 1 is idle and thread 2 is running. -/
def twoThreads : Bench where
  loop := { start ⟨0, 0, 0, 0, 0⟩ ⟨0, 0, 0, 0, 0⟩ with phase := .inform }
  threads := [⟨"1", "THREAD__1", .idle⟩, ⟨"2", "THREAD__2", .running⟩]

/-- The item of `AwbNewSkip all`. -/
def nullItem : WorkItem :=
  { id := 0, kind := .thdSkip none 5 (-1), trigger := .cycleOnce, actionTime := 0, period := 0 }

def newSkipped : Bench :=
  { twoThreads with
    loop := { twoThreads.loop with ctrlWorkList := [nullItem], nextId := 1 }
    sysBreak := true
    threads := [⟨"1", "THREAD__1", .running⟩, ⟨"2", "THREAD__2", .running⟩] }

theorem skip_all_uses_null_twoThreads : ∃ b',
    twoThreads.eval plainHost (.awbSkip "all" 10 (-1)) = .ok b' ∧
      ∀ tr loop, Lts.Run Awb.Classic.Step b'.loop tr loop →
        Served (twoThreads.queuedSince b') tr →
          ¬ SkipsIdle plainHost twoThreads 10 (twoThreads.queuedSince b') tr := by
  refine skip_all_uses_null plainHost twoThreads (by decide) ?_ ⟨_, List.mem_cons_self, rfl⟩ 10
    (-1) (Or.inl rfl)
  intro u thd hthd
  have hmem : thd ∈ twoThreads.threads := List.mem_of_find?_eq_some hthd
  rcases List.mem_cons.mp hmem with rfl | hmem
  · exact ⟨1, rfl⟩
  · obtain rfl := List.mem_singleton.mp hmem
    exact ⟨2, rfl⟩

/-- The loop comes to the queued item, and the model skips on the null pointer. -/
theorem newSkip_all_null : ∃ tr loop,
    twoThreads.eval plainHost (.awbNewSkip "all" 10 (-1)) = .ok newSkipped ∧
      Lts.Run Awb.Classic.Step newSkipped.loop tr loop ∧
      Served (twoThreads.queuedSince newSkipped) tr ∧
      ¬ SkipsIdle plainHost twoThreads 10 (twoThreads.queuedSince newSkipped) tr := by
  have hfollow : ∃ loop, newSkipped.loop.follow (fun _ _ => True)
      (List.replicate 5 (.turn ⟨0, 0, 0, 0, 0⟩)) = some ([.wait, .sample,
        .drain nullItem (.placed nullItem), .drained,
        .process nullItem ⟨0, 0, 0, 0, 0⟩ none], loop) := ⟨_, rfl⟩
  obtain ⟨loop, hloop⟩ := hfollow
  refine ⟨_, loop, rfl, (LoopState.follow_run hloop).of_guarded, ?_, ?_⟩
  · intro item hitem
    obtain rfl : item = nullItem := List.mem_singleton.mp hitem
    exact Or.inl ⟨⟨0, 0, 0, 0, 0⟩, none, by simp⟩
  · intro h
    exact h.no_null (none, 5) (by decide) rfl

end Awb.Workbench
