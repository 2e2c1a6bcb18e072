import Awb.Lib.Runs
import Awb.Lib.UpdateFirst

/-! The TPUs of the APE system. A TPU keeps its thread and its software context when it is
freed; threads are scheduled, blocked, unblocked and unscheduled in any order their life cycle
allows. -/

namespace Awb.Systems
variable {τ : Type}

/-- The checks of `TPU_CLASS`. -/
inductive TpuFault
  | scheduleFree
  | oneThread
  | swcNull
  | unscheduleBusy
  | unblockFree
  | blockBusy
  deriving DecidableEq, Repr

/-- `TPU_CLASS`. The software context is known by the thread whose feeder it reads. -/
structure Tpu (τ : Type) where
  thread : Option τ := none
  swc : Option τ := none
  isFree : Bool := true
  deriving DecidableEq, Repr

namespace Tpu

def scheduleThread [DecidableEq τ] (at' : τ) (tpu : Tpu τ) : Except TpuFault (Tpu τ) :=
  if tpu.isFree = false then .error .scheduleFree
  else if tpu.thread ≠ none ∧ tpu.thread ≠ some at' then .error .oneThread
  else if tpu.swc ≠ none then .error .swcNull
  else .ok { thread := some at', swc := some at', isFree := false }

def unscheduleThread (tpu : Tpu τ) : Except TpuFault (Tpu τ) :=
  if tpu.isFree then .error .unscheduleBusy else .ok { tpu with isFree := true }

def unblockThread (at' : τ) (tpu : Tpu τ) : Except TpuFault (Tpu τ) :=
  if tpu.isFree then .ok { tpu with thread := some at', isFree := false }
  else .error .unblockFree

def blockThread (tpu : Tpu τ) : Except TpuFault (Tpu τ) :=
  if tpu.isFree then .error .blockBusy else .ok { tpu with isFree := true }

end Tpu

/-- `my_tpu`: a slot for each hardware context, filled when it is first scheduled. -/
abbrev Tpus (τ : Type) := List (Option (Tpu τ))

/-- A loop over the filled slots, which updates the first TPU it accepts. -/
def Tpus.first (p : Tpu τ → Bool) (f : Tpu τ → Except TpuFault (Tpu τ)) (tpus : Tpus τ) :
    Except TpuFault (Tpus τ × Bool) :=
  tpus.updateFirst (fun slot => slot.any p) fun slot =>
    match slot with
    | some tpu => (f tpu).map some
    | none => .ok none

/-- `SYS_ScheduleThread`, which creates the TPUs it finds missing. -/
def sysScheduleThread [DecidableEq τ] (thread : τ) (tpus : Tpus τ) :
    Except TpuFault (Tpus τ × Bool) :=
  tpus.updateFirst (fun slot => (slot.getD {}).isFree) fun slot =>
    ((slot.getD {}).scheduleThread thread).map some

def sysUnscheduleThread [DecidableEq τ] (thread : τ) (tpus : Tpus τ) :
    Except TpuFault (Tpus τ × Bool) :=
  tpus.first (fun tpu => tpu.thread = some thread) Tpu.unscheduleThread

def sysUnblockThread (thread : τ) (tpus : Tpus τ) : Except TpuFault (Tpus τ × Bool) :=
  tpus.first Tpu.isFree (Tpu.unblockThread thread)

def sysBlockThread [DecidableEq τ] (thread : τ) (tpus : Tpus τ) :
    Except TpuFault (Tpus τ × Bool) :=
  tpus.first (fun tpu => tpu.thread = some thread) Tpu.blockThread

/-- Where a thread is in its life cycle. -/
inductive Life
  | idle
  | running
  | blocked
  deriving DecidableEq, Repr

inductive Call (τ : Type)
  | schedule (thread : τ)
  | unschedule (thread : τ)
  | unblock (thread : τ)
  | block (thread : τ)
  deriving DecidableEq, Repr

namespace Call

def thread : Call τ → τ
  | schedule t | unschedule t | unblock t | block t => t

/-- The state of its thread a call is made in. -/
def before : Call τ → Life
  | schedule _ => .idle
  | unschedule _ | block _ => .running
  | unblock _ => .blocked

def after : Call τ → Life
  | schedule _ | unblock _ => .running
  | unschedule _ => .idle
  | block _ => .blocked

def run [DecidableEq τ] : Call τ → Tpus τ → Except TpuFault (Tpus τ × Bool)
  | schedule t => sysScheduleThread t
  | unschedule t => sysUnscheduleThread t
  | unblock t => sysUnblockThread t
  | block t => sysBlockThread t

end Call

/-- The TPUs, and the threads as their callers see them. -/
structure Ape (τ : Type) where
  tpus : Tpus τ
  life : τ → Life

/-- The system after its construction, with `n` hardware contexts. -/
def Ape.start (n : Nat) : Ape τ where
  tpus := List.replicate n none
  life := fun _ => .idle

/-- A call follows the life cycle of its thread. -/
def Call.Legal (c : Call τ) (s : Ape τ) : Prop := s.life c.thread = c.before

instance (c : Call τ) (s : Ape τ) : Decidable (c.Legal s) :=
  inferInstanceAs (Decidable (s.life c.thread = c.before))

/-- A call that returns `false` leaves its thread where it was. -/
def Ape.returned [DecidableEq τ] (s : Ape τ) (c : Call τ) (r : Tpus τ × Bool) : Ape τ where
  tpus := r.1
  life := if r.2 then Function.update s.life c.thread c.after else s.life

inductive ApeStep [DecidableEq τ] (s : Ape τ) (c : Call τ) : Ape τ → Prop
  | call {r : Tpus τ × Bool} : c.Legal s → c.run s.tpus = .ok r → ApeStep s c (s.returned c r)

/-- No TPU that was created is free: `SYS_ScheduleThread` finds a slot without one, or none. -/
def Tpus.NoneFreed (tpus : Tpus τ) : Prop := ∀ slot ∈ tpus, ∀ tpu ∈ slot, tpu.isFree = false

instance (tpus : Tpus τ) : Decidable tpus.NoneFreed :=
  inferInstanceAs (Decidable (∀ slot ∈ tpus, ∀ tpu ∈ slot, tpu.isFree = false))

/-- A thread runs on the TPU of a slot. -/
structure Tpus.RunsOn (tpus : Tpus τ) (t : τ) (i : Nat) (tpu : Tpu τ) : Prop where
  slot : tpus[i]? = some (some tpu)
  thread : tpu.thread = some t
  busy : tpu.isFree = false

/-- What every call keeps. The stale threads of freed TPUs come after the TPU they run on. -/
structure Ape.Placed (s : Ape τ) : Prop where
  runs : ∀ t, s.life t = .running → ∃ i tpu, s.tpus.RunsOn t i tpu
  first : ∀ (t : τ) (i j : Nat) (tpu u : Tpu τ), s.tpus.RunsOn t i tpu →
    s.tpus[j]? = some (some u) → u.thread = some t → i ≤ j
  busy : ∀ (i : Nat) (u : Tpu τ), s.tpus[i]? = some (some u) → u.isFree = false →
    ∃ t, u.thread = some t ∧ s.life t = .running
  created : ∀ (i j : Nat) (u : Tpu τ), i < j → s.tpus[j]? = some (some u) →
    s.tpus[i]? ≠ some none
  swc : ∀ (i : Nat) (u : Tpu τ), s.tpus[i]? = some (some u) → u.swc ≠ none

namespace Ape

theorem placed_start (n : Nat) : (start n : Ape τ).Placed := by
  have hnone : ∀ (i : Nat) (u : Tpu τ), (start n : Ape τ).tpus[i]? ≠ some (some u) := by
    intro i u h
    have hmem := List.mem_of_getElem? h
    exact absurd (List.eq_of_mem_replicate hmem) (by simp)
  constructor
  · intro t h
    cases h
  · intro t i j tpu u h
    exact absurd h.slot (hnone i tpu)
  · intro i u h
    exact absurd h (hnone i u)
  · intro i j u _ h
    exact absurd h (hnone j u)
  · intro i u h
    exact absurd h (hnone i u)

variable {s : Ape τ} {t : τ} {i : Nat}

/-- The slot of a running thread is the first that names the thread. -/
theorem Placed.only (h : s.Placed) {j : Nat} {tpu u : Tpu τ} (hi : s.tpus.RunsOn t i tpu)
    (hj : s.tpus.RunsOn t j u) : i = j := by
  have hij : i ≤ j := h.first t i j tpu u hi hj.slot hj.thread
  have hji : j ≤ i := h.first t j i u tpu hj hi.slot hi.thread
  omega

/-- A blocked thread takes the first TPU that is free. -/
theorem Placed.unblock (h : s.Placed) :
    sysUnblockThread t s.tpus = .ok (s.tpus, false) ∨
    ∃ (i : Nat) (tpu : Tpu τ), s.tpus[i]? = some (some tpu) ∧ tpu.isFree = true ∧
      (∀ (j : Nat) (b : Option (Tpu τ)), j < i → s.tpus[j]? = some b →
        ∃ u, b = some u ∧ u.isFree = false) ∧
      sysUnblockThread t s.tpus =
        .ok (s.tpus.set i (some { tpu with thread := some t, isFree := false }), true) := by
  unfold sysUnblockThread Tpus.first
  obtain ⟨_, hno⟩ | ⟨i, slot, hi, hslot, hbefore, hok⟩ := List.updateFirst_cases
    (fun slot : Option (Tpu τ) => slot.any Tpu.isFree)
    (fun slot => match slot with
      | some tpu => (tpu.unblockThread t).map some
      | none => .ok none) s.tpus
  · exact .inl hno
  · right
    cases slot with
    | none => cases hslot
    | some tpu =>
      have hfree : tpu.isFree = true := hslot
      refine ⟨i, tpu, hi, hfree, fun j b hj hb => ?_, ?_⟩
      · cases b with
        | none => exact absurd hb (h.created j i tpu hj hi)
        | some u => exact ⟨u, rfl, hbefore j _ hj hb⟩
      · rw [hok]
        simp [Tpu.unblockThread, hfree, Except.map]

end Ape

/-- A slot of a list of which one slot was filled anew. -/
theorem Tpus.slot_set {tpus : Tpus τ} {i : Nat} (hi : i < tpus.length) {v : Tpu τ} {j : Nat}
    {slot : Option (Tpu τ)} :
    (tpus.set i (some v))[j]? = some slot ↔
      (j = i ∧ slot = some v) ∨ (j ≠ i ∧ tpus[j]? = some slot) := by
  rw [List.getElem?_set]
  by_cases hij : i = j
  · subst hij
    rw [if_pos rfl, if_pos hi]
    simp [eq_comm]
  · rw [if_neg hij]
    simp [Ne.symm hij]

theorem Tpus.runsOn_set {tpus : Tpus τ} {i : Nat} (hi : i < tpus.length) {v u : Tpu τ} {t : τ}
    {j : Nat} :
    RunsOn (tpus.set i (some v)) t j u ↔
      (j = i ∧ u = v ∧ v.thread = some t ∧ v.isFree = false) ∨
      (j ≠ i ∧ tpus.RunsOn t j u) := by
  constructor
  · rintro ⟨hslot, hthread, hbusy⟩
    rcases (slot_set hi).mp hslot with ⟨hj, hu⟩ | ⟨hj, hu⟩
    · obtain rfl : u = v := Option.some.inj hu
      exact .inl ⟨hj, rfl, hthread, hbusy⟩
    · exact .inr ⟨hj, hu, hthread, hbusy⟩
  · rintro (⟨hj, rfl, hthread, hbusy⟩ | ⟨hj, hu⟩)
    · exact ⟨(slot_set hi).mpr (.inl ⟨hj, rfl⟩), hthread, hbusy⟩
    · exact ⟨(slot_set hi).mpr (.inr ⟨hj, hu.slot⟩), hu.thread, hu.busy⟩

namespace Ape
variable [DecidableEq τ] {s : Ape τ} {t : τ} {i : Nat}

/-- A thread takes the first slot whose TPU is missing or free. -/
theorem Placed.occupy (h : s.Placed) (ht : s.life t ≠ .running) {slot : Option (Tpu τ)}
    (hi : s.tpus[i]? = some slot) (hfree : (slot.getD {}).isFree = true)
    (hbefore : ∀ (j : Nat) (b : Option (Tpu τ)), j < i → s.tpus[j]? = some b →
      ∃ u, b = some u ∧ u.isFree = false)
    {v : Tpu τ} (hthread : v.thread = some t) (hbusy : v.isFree = false) (hswc : v.swc ≠ none) :
    Placed { tpus := s.tpus.set i (some v), life := Function.update s.life t .running } := by
  have hlen : i < s.tpus.length := (List.getElem?_eq_some_iff.mp hi).1
  -- a busy TPU is not the one that is taken
  have hother : ∀ (j : Nat) (u : Tpu τ), s.tpus[j]? = some (some u) → u.isFree = false → j ≠ i := by
    rintro j u hu hb rfl
    obtain rfl : slot = some u := by simpa [hi] using hu
    simp [hb] at hfree
  -- and does not name the thread that takes it
  have hnames : ∀ (j : Nat) (u : Tpu τ), s.tpus[j]? = some (some u) → u.isFree = false →
      u.thread ≠ some t := by
    intro j u hu hb hut
    obtain ⟨t', ht', hrun⟩ := h.busy j u hu hb
    obtain rfl : t' = t := Option.some.inj (ht'.symm.trans hut)
    exact ht hrun
  constructor
  · intro t' ht'
    by_cases htt : t' = t
    · subst htt
      exact ⟨i, v, (Tpus.runsOn_set hlen).mpr (.inl ⟨rfl, rfl, hthread, hbusy⟩)⟩
    · simp only [Function.update_of_ne htt] at ht'
      obtain ⟨j, u, hu⟩ := h.runs t' ht'
      have hji : j ≠ i := hother j u hu.slot hu.busy
      exact ⟨j, u, (Tpus.runsOn_set hlen).mpr (.inr ⟨hji, hu⟩)⟩
  · intro t' j k tpu u hj hk hut
    rcases (Tpus.runsOn_set hlen).mp hj with ⟨rfl, rfl, hvt, _⟩ | ⟨_, hj'⟩
    · obtain rfl : t = t' := Option.some.inj (hthread.symm.trans hvt)
      rcases (Tpus.slot_set hlen).mp hk with ⟨rfl, _⟩ | ⟨_, hk'⟩
      · exact Nat.le_refl k
      · -- before the slot all TPUs are busy with other threads
        by_contra hlt
        obtain ⟨w, hw, hwb⟩ := hbefore k (some u) (by omega) hk'
        obtain rfl : u = w := Option.some.inj hw
        exact hnames k u hk' hwb hut
    · rcases (Tpus.slot_set hlen).mp hk with ⟨rfl, hu⟩ | ⟨_, hk'⟩
      · obtain rfl : u = v := Option.some.inj hu
        obtain rfl : t = t' := Option.some.inj (hthread.symm.trans hut)
        exact absurd hj'.thread (hnames j tpu hj'.slot hj'.busy)
      · exact h.first t' j k tpu u hj' hk' hut
  · intro j u hu hb
    rcases (Tpus.slot_set hlen).mp hu with ⟨rfl, hv⟩ | ⟨_, hu'⟩
    · obtain rfl : u = v := Option.some.inj hv
      exact ⟨t, hthread, Function.update_self ..⟩
    · obtain ⟨t', ht', hrun⟩ := h.busy j u hu' hb
      have htt : t' ≠ t := by
        rintro rfl
        exact hnames j u hu' hb ht'
      exact ⟨t', ht', by simp only [Function.update_of_ne htt, hrun]⟩
  · intro j k u hjk hk hj
    rcases (Tpus.slot_set hlen).mp hj with ⟨_, hnone⟩ | ⟨_, hj'⟩
    · cases hnone
    rcases (Tpus.slot_set hlen).mp hk with ⟨rfl, _⟩ | ⟨_, hk'⟩
    · obtain ⟨w, hw, _⟩ := hbefore j none hjk hj'
      cases hw
    · exact h.created j k u hjk hk' hj'
  · intro j u hu
    rcases (Tpus.slot_set hlen).mp hu with ⟨_, hu⟩ | ⟨_, hu⟩
    · obtain rfl : u = v := Option.some.inj hu
      exact hswc
    · exact h.swc j u hu

/-- The TPU of a running thread is freed and keeps the thread's name. -/
theorem Placed.release (h : s.Placed) {tpu : Tpu τ} (hi : s.tpus.RunsOn t i tpu) {life : Life}
    (hlife : life ≠ .running) :
    Placed { tpus := s.tpus.set i (some { tpu with isFree := true })
             life := Function.update s.life t life } := by
  have hlen : i < s.tpus.length := (List.getElem?_eq_some_iff.mp hi.slot).1
  -- the other TPUs run other threads
  have hother : ∀ (t' : τ) (j : Nat) (u : Tpu τ), s.tpus.RunsOn t' j u → (j ≠ i ↔ t' ≠ t) := by
    intro t' j u hu
    constructor
    · rintro hji rfl
      exact hji (h.only hu hi)
    · rintro htt rfl
      obtain rfl : tpu = u := by simpa [hi.slot] using hu.slot
      exact htt (Option.some.inj (hu.thread.symm.trans hi.thread))
  constructor
  · intro t' ht'
    have htt : t' ≠ t := by
      rintro rfl
      simp only [Function.update_self] at ht'
      exact hlife ht'
    simp only [Function.update_of_ne htt] at ht'
    obtain ⟨j, u, hu⟩ := h.runs t' ht'
    have hji : j ≠ i := (hother t' j u hu).mpr htt
    exact ⟨j, u, (Tpus.runsOn_set hlen).mpr (.inr ⟨hji, hu⟩)⟩
  · intro t' j k u w hj hk hwt
    rcases (Tpus.runsOn_set hlen).mp hj with ⟨_, _, _, hfree⟩ | ⟨_, hj'⟩
    · cases hfree
    rcases (Tpus.slot_set hlen).mp hk with ⟨rfl, hw⟩ | ⟨_, hk'⟩
    · obtain rfl := Option.some.inj hw
      exact h.first t' j k u tpu hj' hi.slot hwt
    · exact h.first t' j k u w hj' hk' hwt
  · intro j u hu hb
    rcases (Tpus.slot_set hlen).mp hu with ⟨_, hu⟩ | ⟨hji, hu⟩
    · obtain rfl := Option.some.inj hu
      cases hb
    · obtain ⟨t', ht', hrun⟩ := h.busy j u hu hb
      have htt : t' ≠ t := (hother t' j u ⟨hu, ht', hb⟩).mp hji
      exact ⟨t', ht', by simp only [Function.update_of_ne htt, hrun]⟩
  · intro j k u hjk hk hj
    rcases (Tpus.slot_set hlen).mp hj with ⟨_, hnone⟩ | ⟨_, hj'⟩
    · cases hnone
    rcases (Tpus.slot_set hlen).mp hk with ⟨rfl, _⟩ | ⟨_, hk'⟩
    · exact h.created j k tpu hjk hi.slot hj'
    · exact h.created j k u hjk hk' hj'
  · intro j u hu
    rcases (Tpus.slot_set hlen).mp hu with ⟨_, hu⟩ | ⟨_, hu⟩
    · obtain rfl := Option.some.inj hu
      exact h.swc i tpu hi.slot
    · exact h.swc j u hu

/-- The search for the TPU of a running thread finds the TPU the thread runs on. -/
theorem Placed.first_thread (h : s.Placed) {tpu : Tpu τ} (hi : s.tpus.RunsOn t i tpu)
    (f : Tpu τ → Except TpuFault (Tpu τ)) :
    s.tpus.first (fun u => u.thread = some t) f =
      (f tpu).map fun v => (s.tpus.set i (some v), true) := by
  have hnames : ((some tpu).any fun u => decide (u.thread = some t)) = true := by
    simp [hi.thread]
  have hbefore : ∀ (j : Nat) (b : Option (Tpu τ)), j < i → s.tpus[j]? = some b →
      (b.any fun u => decide (u.thread = some t)) = false := by
    intro j b hj hb
    cases b with
    | none => rfl
    | some u =>
      have hut : u.thread ≠ some t := fun hut => by
        have hij : i ≤ j := h.first t i j tpu u hi hb hut
        omega
      simpa using hut
  unfold Tpus.first
  rw [List.updateFirst_of_first hi.slot hnames hbefore]
  cases hf : f tpu with
  | error e => simp only [hf, Except.map]
  | ok v => simp only [hf, Except.map]

/-- Unscheduling and blocking free the TPU the thread runs on, and change no other. -/
theorem Placed.frees (h : s.Placed) {tpu : Tpu τ} (hi : s.tpus.RunsOn t i tpu) {c : Call τ}
    (hc : c = .unschedule t ∨ c = .block t) :
    c.run s.tpus = .ok (s.tpus.set i (some { tpu with isFree := true }), true) := by
  have hfree : ∀ f ∈ [Tpu.unscheduleThread, Tpu.blockThread (τ := τ)],
      f tpu = .ok { tpu with isFree := true } := by
    simp [Tpu.unscheduleThread, Tpu.blockThread, hi.busy]
  rcases hc with rfl | rfl
  · change s.tpus.first _ _ = _
    rw [h.first_thread hi, hfree _ (.head _)]
    rfl
  · change s.tpus.first _ _ = _
    rw [h.first_thread hi, hfree _ (.tail _ (.head _))]
    rfl

/-- Where no TPU was freed a thread is scheduled on a new TPU, or not at all. -/
theorem schedule_of_noneFreed (hnone : s.tpus.NoneFreed) :
    sysScheduleThread t s.tpus = .ok (s.tpus, false) ∨
    ∃ i : Nat, s.tpus[i]? = some none ∧
      (∀ (j : Nat) (b : Option (Tpu τ)), j < i → s.tpus[j]? = some b →
        ∃ u, b = some u ∧ u.isFree = false) ∧
      sysScheduleThread t s.tpus =
        .ok (s.tpus.set i (some { thread := some t, swc := some t, isFree := false }), true) := by
  unfold sysScheduleThread
  obtain ⟨_, hno⟩ | ⟨i, slot, hi, hfree, hbefore, hok⟩ := List.updateFirst_cases
    (fun slot : Option (Tpu τ) => (slot.getD {}).isFree)
    (fun slot => ((slot.getD {}).scheduleThread t).map some) s.tpus
  · exact .inl hno
  · right
    cases slot with
    | none =>
      refine ⟨i, hi, fun j b hj hb => ?_, hok⟩
      have hbusy := hbefore j b hj hb
      cases b with
      | none => cases hbusy
      | some u => exact ⟨u, rfl, hbusy⟩
    | some tpu =>
      have hbusy : tpu.isFree = false := hnone _ (List.mem_of_getElem? hi) tpu rfl
      simp [hbusy] at hfree

/-- Where some TPU was freed, the thread is scheduled on a TPU that was used. -/
theorem Placed.schedule_of_freed (h : s.Placed) (hfreed : ¬ s.tpus.NoneFreed) :
    ∃ f, sysScheduleThread t s.tpus = .error f := by
  unfold Tpus.NoneFreed at hfreed
  push Not at hfreed
  obtain ⟨slot, hmem, tpu, htpu, hfree⟩ := hfreed
  obtain rfl : slot = some tpu := htpu
  unfold sysScheduleThread
  obtain ⟨hno, _⟩ | ⟨i, slot, hi, hslot, hbefore, hok⟩ := List.updateFirst_cases
    (fun slot : Option (Tpu τ) => (slot.getD {}).isFree)
    (fun slot => ((slot.getD {}).scheduleThread t).map some) s.tpus
  · have hbusy : tpu.isFree = false := hno _ hmem
    exact absurd hbusy hfree
  · obtain ⟨j, hj⟩ := List.mem_iff_getElem?.mp hmem
    cases slot with
    | none =>
      have hij : i < j := by
        by_contra hle
        rcases Nat.lt_or_eq_of_le (Nat.not_lt.mp hle) with hlt | rfl
        · exact hfree (hbefore j _ hlt hj)
        · cases hi.symm.trans hj
      exact absurd hi (h.created i j tpu hij hj)
    | some u =>
      have hu : u.isFree = true := hslot
      have hswc : u.swc ≠ none := h.swc i u hi
      rw [hok]
      unfold Tpu.scheduleThread
      by_cases hone : u.thread ≠ none ∧ u.thread ≠ some t
      · exact ⟨.oneThread, by simp [hu, hone, Except.map]⟩
      · exact ⟨.swcNull, by simp [hu, hone, hswc, Except.map]⟩

end Ape

/-- The condition on a call: a thread is scheduled only while no TPU created so far is free. -/
def Call.onNewTpu (s : Ape τ) (c : Call τ) : Prop := c.before = .idle → s.tpus.NoneFreed

instance (s : Ape τ) (c : Call τ) : Decidable (c.onNewTpu s) :=
  inferInstanceAs (Decidable (c.before = .idle → s.tpus.NoneFreed))

/-- What the callers rely on: running threads have a TPU each, their calls pass the checks, and
unscheduling and blocking free their TPU. -/
structure Ape.Served [DecidableEq τ] (s : Ape τ) : Prop where
  one_tpu : ∀ t, s.life t = .running → ∃ i tpu, s.tpus.RunsOn t i tpu ∧
    ∀ j u, s.tpus.RunsOn t j u → j = i
  own_tpu : ∀ (i : Nat) (tpu : Tpu τ), s.tpus[i]? = some (some tpu) → tpu.isFree = false →
    ∃ t, tpu.thread = some t ∧ s.life t = .running
  checked : ∀ c : Call τ, c.Legal s → ((∃ r, c.run s.tpus = .ok r) ↔ c.onNewTpu s)
  frees : ∀ (c : Call τ) (t : τ) (i : Nat) (tpu : Tpu τ), c = .unschedule t ∨ c = .block t →
    s.tpus.RunsOn t i tpu →
    c.run s.tpus = .ok (s.tpus.set i (some { tpu with isFree := true }), true)

theorem Call.onNewTpu_of_ne {s : Ape τ} {c : Call τ} (h : c.before ≠ .idle) : c.onNewTpu s :=
  fun hidle => absurd hidle h

namespace Ape
variable [DecidableEq τ] {s s' : Ape τ}

theorem Placed.checked (h : s.Placed) {c : Call τ} (hc : c.Legal s) :
    (∃ r, c.run s.tpus = .ok r) ↔ c.onNewTpu s := by
  cases c with
  | schedule t =>
    constructor
    · rintro ⟨r, hr⟩ _
      by_contra hfreed
      obtain ⟨f, hf⟩ : ∃ f, sysScheduleThread t s.tpus = .error f := h.schedule_of_freed hfreed
      cases hf.symm.trans hr
    · intro hnew
      rcases schedule_of_noneFreed (t := t) (hnew rfl) with hok | ⟨i, _, _, hok⟩
      · exact ⟨_, hok⟩
      · exact ⟨_, hok⟩
  | unschedule t =>
    obtain ⟨i, tpu, hi⟩ := h.runs t hc
    exact iff_of_true ⟨_, h.frees hi (.inl rfl)⟩ (Call.onNewTpu_of_ne (by simp [Call.before]))
  | unblock t =>
    refine iff_of_true ?_ (Call.onNewTpu_of_ne (by simp [Call.before]))
    rcases h.unblock (t := t) with hok | ⟨i, tpu, _, _, _, hok⟩
    · exact ⟨_, hok⟩
    · exact ⟨_, hok⟩
  | block t =>
    obtain ⟨i, tpu, hi⟩ := h.runs t hc
    exact iff_of_true ⟨_, h.frees hi (.inr rfl)⟩ (Call.onNewTpu_of_ne (by simp [Call.before]))

theorem Placed.step (h : s.Placed) {c : Call τ}
    (hstep : Lts.guarded Call.onNewTpu ApeStep s c s') : s'.Placed := by
  obtain ⟨hnew, ⟨hc, hr⟩⟩ := hstep
  cases c with
  | schedule t =>
    rcases schedule_of_noneFreed (t := t) (hnew rfl) with hok | ⟨i, hi, hbefore, hok⟩
    · obtain rfl := Except.ok.inj (hok.symm.trans hr)
      exact h
    · obtain rfl := Except.ok.inj (hok.symm.trans hr)
      have ht : s.life t ≠ .running := by
        rw [show s.life t = .idle from hc]
        decide
      exact h.occupy ht hi rfl hbefore rfl rfl (by simp)
  | unschedule t =>
    obtain ⟨i, tpu, hi⟩ := h.runs t hc
    obtain rfl := Except.ok.inj ((h.frees hi (.inl rfl)).symm.trans hr)
    exact h.release hi (by simp [Call.after])
  | unblock t =>
    rcases h.unblock (t := t) with hok | ⟨i, tpu, hi, hfree, hbefore, hok⟩
    · obtain rfl := Except.ok.inj (hok.symm.trans hr)
      exact h
    · obtain rfl := Except.ok.inj (hok.symm.trans hr)
      have ht : s.life t ≠ .running := by
        rw [show s.life t = .blocked from hc]
        decide
      exact h.occupy ht hi hfree hbefore rfl rfl (h.swc i tpu hi)
  | block t =>
    obtain ⟨i, tpu, hi⟩ := h.runs t hc
    obtain rfl := Except.ok.inj ((h.frees hi (.inr rfl)).symm.trans hr)
    exact h.release hi (by simp [Call.after])

theorem Placed.served (h : s.Placed) : s.Served where
  one_tpu := by
    intro t ht
    obtain ⟨i, tpu, hi⟩ := h.runs t ht
    exact ⟨i, tpu, hi, fun j u hj => h.only hj hi⟩
  own_tpu := h.busy
  checked := fun _ hc => h.checked hc
  frees := fun _ _ _ _ hc hi => h.frees hi hc

end Ape

/-- Threads that are scheduled on new TPUs only are served for as long as they run. -/
theorem ape_served [DecidableEq τ] (n : Nat) (s : Ape τ) (calls : List (Call τ))
    (run : Lts.Run (Lts.guarded Call.onNewTpu ApeStep) (Ape.start n) calls s) : s.Served := by
  have hplaced : s.Placed := run.invariant (fun _ s => s.Placed) (Ape.placed_start n)
    fun _ _ _ _ h hstep => h.step hstep
  exact hplaced.served

/-- Two threads change places while they are blocked. -/
theorem ape_served_exchange :
    ∃ s : Ape Nat, Lts.Run (Lts.guarded Call.onNewTpu ApeStep) (Ape.start 2)
      [.schedule 0, .schedule 1, .block 0, .block 1, .unblock 1, .unblock 0] s ∧ s.Served := by
  have hrun : ∃ s : Ape Nat, Lts.Run (Lts.guarded Call.onNewTpu ApeStep) (Ape.start 2)
      [.schedule 0, .schedule 1, .block 0, .block 1, .unblock 1, .unblock 0] s :=
    ⟨_, .cons ⟨by decide, .call (by decide) rfl⟩ <|
      .cons ⟨by decide, .call (by decide) rfl⟩ <| .cons ⟨by decide, .call (by decide) rfl⟩ <|
      .cons ⟨by decide, .call (by decide) rfl⟩ <| .cons ⟨by decide, .call (by decide) rfl⟩ <|
      .cons ⟨by decide, .call (by decide) rfl⟩ .nil⟩
  obtain ⟨s, run⟩ := hrun
  exact ⟨s, run, ape_served 2 s _ run⟩

/-- A TPU that was used takes no other thread, and not even its own thread again. -/
theorem ape_used_tpu :
    ∃ s : Ape Nat, Lts.Run ApeStep (Ape.start 1) [.schedule 0, .unschedule 0] s ∧
      (Call.schedule 1).Legal s ∧ (Call.schedule 1).run s.tpus = .error .oneThread ∧
      (Call.schedule 0).Legal s ∧ (Call.schedule 0).run s.tpus = .error .swcNull := by
  refine ⟨_, .cons (.call (by decide) rfl) (.cons (.call (by decide) rfl) .nil), ?_, ?_, ?_, ?_⟩
  · decide
  · rfl
  · decide
  · rfl

end Awb.Systems
