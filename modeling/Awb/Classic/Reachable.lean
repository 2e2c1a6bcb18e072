import Awb.Classic.Ordering

/-! The states the loop can reach, what leaves their lists in a step, and how far the system may
run before the next event. -/

namespace Awb.Classic

/-- A state of some run from the construction of the controller on. -/
def Reachable (ctl : LoopState) : Prop :=
  ∃ current system tr, Lts.Run Step (start current system) tr ctl

namespace Reachable
variable {ctl ctl' : LoopState} {l : Label} {tr : List Label}

theorem step (h : Reachable ctl) (hs : Step ctl l ctl') : Reachable ctl' := by
  obtain ⟨current, system, tr, run⟩ := h
  exact ⟨current, system, _, run.snoc hs⟩

theorem run (h : Reachable ctl) (run : Lts.Run Step ctl tr ctl') : Reachable ctl' := by
  obtain ⟨current, system, tr', run'⟩ := h
  exact ⟨current, system, _, run'.trans run⟩

theorem wellPlaced (h : Reachable ctl) : WellPlaced ctl := by
  obtain ⟨current, system, tr, run⟩ := h
  exact (wellPlaced_start current system).run run

theorem countId_le (h : Reachable ctl) (id : Nat) : ctl.countId id ≤ 1 := by
  obtain ⟨current, system, tr, run⟩ := h
  exact run_countId_le run id

theorem sorted (h : Reachable ctl) (k : CounterKind) :
    (ctl.schedule.list k).Pairwise fun a b => a.time ≤ b.time := by
  obtain ⟨current, system, tr, run⟩ := h
  exact (run_ordered run k).imp StableInsert.Before.key_le

/-- From its top to its end a round of the loop works with the counts read at the top. -/
theorem current_eq (h : Reachable ctl)
    (hp : ctl.phase = .drain ∨ ctl.phase = .ready ∨ ctl.phase = .inform) :
    ctl.current = ctl.system := by
  obtain ⟨current, system, tr, run⟩ := h
  revert hp
  apply run.invariant fun _ ctl =>
    ctl.phase = .drain ∨ ctl.phase = .ready ∨ ctl.phase = .inform → ctl.current = ctl.system
  · simp [start]
  · intro tr ctl l ctl' ih h
    cases h.move <;>
      simp_all [LoopState.arrive]

theorem head_le (h : Reachable ctl) {k : CounterKind} {x : WorkItem}
    (hx : x ∈ ctl.schedule.list k) :
    ∃ head rest, ctl.schedule.list k = head :: rest ∧ head.time ≤ x.time := by
  have hs := h.sorted k
  cases hl : ctl.schedule.list k with
  | nil => simp [hl] at hx
  | cons head rest =>
    rw [hl] at hs hx
    refine ⟨head, rest, rfl, ?_⟩
    rcases List.mem_cons.mp hx with rfl | hx
    · exact Nat.le_refl _
    · exact (List.pairwise_cons.mp hs).1 x hx

end Reachable

/-! ### What leaves the lists -/

theorem list_of_schedule {item x : WorkItem} {s s' : Schedule} {current : Counters}
    {r : Scheduled} {k : CounterKind} (h : item.schedule s current = .ok (r, s'))
    (hx : x ∈ s.list k) : x ∈ s'.list k ∨ x ∈ r.deleted := by
  rcases WorkItem.schedule_ok h with ⟨k', -, rfl, rfl⟩ | ⟨item', -, rfl, hs⟩
  · rw [Schedule.clearProgress, Schedule.list_setList]
    split_ifs with hk
    · subst hk
      cases hp : WorkList.isProgress x
      · exact .inl (List.mem_filter.mpr ⟨hx, by simp [hp]⟩)
      · exact .inr (List.mem_filter.mpr ⟨hx, hp⟩)
    · exact .inl hx
  · obtain ⟨-, k', -, rfl⟩ := Schedule.schedule_ok_iff.mp hs
    left
    rw [Schedule.list_setList]
    split_ifs with hk
    · exact mem_insertOrdered.mpr (.inr (hk ▸ hx))
    · exact hx

theorem list_of_readyEvent {item x : WorkItem} {s s' : Schedule} {current : Counters}
    {k : CounterKind} (h : s.readyEvent current = .ok (some (item, s'))) (hx : x ∈ s.list k) :
    x = item ∨ x ∈ s'.list k := by
  obtain ⟨k', rest, hl, -, rfl⟩ := Schedule.readyEvent_some h
  rw [Schedule.list_setList]
  split_ifs with hk
  · subst hk
    exact List.mem_cons.mp (hl ▸ hx)
  · exact .inr hx

/-- An item that is ready and one that waits are the same when they are the same object. -/
theorem eq_of_readyEvent {item x : WorkItem} {s s' : Schedule} {current : Counters}
    {k : CounterKind} (h : s.readyEvent current = .ok (some (item, s'))) (hx : x ∈ s.list k)
    (hone : s.countId item.id ≤ 1) (hid : x.id = item.id) : x = item := by
  rcases list_of_readyEvent h hx with rfl | hx'
  · rfl
  · have h1 := countId_of_readyEvent h item.id
    have h2 := countId_pos (List.mem_singleton_self item)
    have h3 := countId_pos hx'
    have h4 := s'.countId_list_le k x.id
    rw [hid] at h3 h4
    omega

/-! ### One list at the time of the next event -/

theorem nextEvents_get {ctl : LoopState} {limits : Counters} (h : ctl.nextEvents = .ok limits)
    (k : CounterKind) : ctl.schedule.forNextEvent k (ctl.current.get k) = .ok (limits.get k) := by
  unfold LoopState.nextEvents at h
  simp only [bind, Except.bind] at h
  split at h
  · simp at h
  split at h
  · simp at h
  split at h
  · simp at h
  split at h
  · simp at h
  split at h
  · simp at h
  obtain rfl := Except.ok.inj h
  cases k <;> assumption

theorem forNextEvent_ok {s : Schedule} {k : CounterKind} {current n : UInt64} {head : WorkItem}
    {rest : WorkList} (hl : s.list k = head :: rest) (h : s.forNextEvent k current = .ok n) :
    n = current ∨ n = head.actionTime := by
  rw [Schedule.forNextEvent, hl] at h
  dsimp only at h
  split_ifs at h
  · exact .inl (Except.ok.inj h).symm
  · exact .inr (Except.ok.inj h).symm

/-- The system is not allowed past an item that waits. -/
theorem limit_le {ctl : LoopState} (hr : Reachable ctl) {limits : Counters}
    (h : ctl.nextEvents = .ok limits) {k : CounterKind} {x : WorkItem}
    (hx : x ∈ ctl.schedule.list k) (hc : (ctl.current.get k).toNat ≤ x.time) :
    (limits.get k).toNat ≤ x.time := by
  obtain ⟨head, rest, hl, hle⟩ := hr.head_le hx
  rcases forNextEvent_ok hl (nextEvents_get h k) with h | h <;> rw [h]
  · exact hc
  · exact hle

/-- After a pass everything that waits lies in the future. -/
theorem lt_time_of_idle {ctl : LoopState} (hr : Reachable ctl)
    (h : ctl.schedule.readyEvent ctl.current = .ok none) {k : CounterKind} {x : WorkItem}
    (hx : x ∈ ctl.schedule.list k) : (ctl.current.get k).toNat < x.time := by
  obtain ⟨head, rest, hl, hle⟩ := hr.head_le hx
  have hf := Schedule.readyEvent_none h k head (by simp [hl])
  simp only [Schedule.isFuture, Bool.and_eq_true, decide_eq_true_eq] at hf
  exact (UInt64.lt_iff_toNat_lt.mp hf.2).trans_le hle

end Awb.Classic
