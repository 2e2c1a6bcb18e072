import Awb.Classic.SchedulerLoop
import Awb.Lib.Loops

/-! `SYS_Execute` of the three systems: one loop for each, with its own guard, run over whatever
the clocked modules do to the counters in each iteration. -/

namespace Awb.Systems
open Awb.Classic

/-- The members of the system classes that `SYS_Execute` reads and writes, and the controller
it sends its stop to. -/
structure Sys where
  nanosecond : UInt64
  cycle : UInt64
  inst : UInt64
  macroInst : UInt64
  receivedPkt : UInt64
  committedMarkers : UInt64
  commitWatchMarker : Int
  sysBreak : Bool
  controller : Controller := {}
  deriving DecidableEq

/-- What the modules leave behind when they have been clocked once. -/
structure Work where
  inst : UInt64
  macroInst : UInt64
  receivedPkt : UInt64
  committedMarkers : UInt64
  sysBreak : Bool

/-- The surroundings of one iteration: the modules, the clock server of the multi chip system,
and whether a TPU of the APE system was neither free nor stalled. -/
structure Iteration where
  work : Work
  nanosecond : UInt64
  cycle : UInt64
  tpuActive : Bool

namespace Sys

def worked (s : Sys) (w : Work) : Sys :=
  { s with
    inst := w.inst
    macroInst := w.macroInst
    receivedPkt := w.receivedPkt
    committedMarkers := w.committedMarkers
    sysBreak := w.sysBreak }

/-- `SYS_Cycle()++`. -/
def tick (s : Sys) : Sys := { s with cycle := s.cycle + 1 }

/-- `CMD_Stop(ACTION_NOW)`. -/
def cmdStop (s : Sys) : Sys :=
  { s with
    controller := s.controller.command
      { kind := .stop, trigger := .now, count := 0, now_count := Command.zero_of_now }
    sysBreak := true }

/-- The end of every `SYS_Execute`, which also resets a watch that was triggered. -/
def leave (s : Sys) (stopMarker : UInt64) : Sys × Bool :=
  let done := if s.committedMarkers ≥ stopMarker then
      { s with commitWatchMarker := -1 }.cmdStop
    else s
  (done, !done.sysBreak)

end Sys

/-- The states in which `SYS_Execute` starts an iteration, and how it returns. -/
structure Execution where
  starts : List Sys
  returned : Option (Sys × Bool)

/-- A loop from its entry on, and the end of `SYS_Execute` behind it. -/
def execution {σ : Type} (loop : WhileLoop σ Iteration) (sys : σ → Sys) (stopMarker : UInt64)
    (entry : σ) (its : List Iteration) : Execution where
  starts := (loop.starts entry its).map sys
  returned := (loop.exit entry its).map fun l => (sys l).leave stopMarker

structure ApeLocals where
  sys : Sys
  idleCount : UInt64
  isAnyTpuActive : Bool

def apeLoop (maxIdleCycles : UInt64) (stop : Counters) (stopMarker : UInt64) :
    WhileLoop ApeLocals Iteration where
  guard l := !l.sys.sysBreak && l.sys.cycle < stop.cycle && l.sys.inst < stop.inst &&
    l.sys.macroInst < stop.macroInst && l.sys.committedMarkers < stopMarker
  body l it :=
    let idleCount := if l.isAnyTpuActive then maxIdleCycles else l.idleCount - 1
    -- ASSERTX(idle_count)
    if idleCount = 0 then none
    else some { sys := (l.sys.worked it.work).tick, idleCount, isAnyTpuActive := it.tpuActive }

/-- `ASIM_APE_CLASS::SYS_Execute`. -/
def apeExecute (maxIdleCycles : UInt64) (stop : Counters) (s : Sys) (its : List Iteration) :
    Execution :=
  let stopMarker := s.committedMarkers + 1
  execution (apeLoop maxIdleCycles stop stopMarker) ApeLocals.sys stopMarker
    { sys := s, idleCount := maxIdleCycles, isAnyTpuActive := true } its

def singleChipLoop (stop : Counters) (stopMarker : UInt64) : WhileLoop Sys Iteration where
  guard s := !s.sysBreak && s.cycle < stop.cycle && s.inst < stop.inst &&
    s.macroInst < stop.macroInst && s.committedMarkers < stopMarker
  body s it := some (s.worked it.work).tick

/-- `ASIM_COMMON_SYSTEM_CLASS::SYS_Execute`; `warmUp` is what `DoWarmUp` leaves behind. -/
def singleChipExecute (stop : Counters) (warmUp : Work) (s : Sys) (its : List Iteration) :
    Execution :=
  let stopMarker := s.committedMarkers + 1
  execution (singleChipLoop stop stopMarker) id stopMarker (s.worked warmUp) its

structure MultiChipLocals where
  sys : Sys
  sysCycle : UInt64

def multiChipLoop (stop : Counters) (stopMarker : UInt64) :
    WhileLoop MultiChipLocals Iteration where
  guard l := !l.sys.sysBreak && l.sys.nanosecond < stop.nanosecond && l.sysCycle < stop.cycle &&
    l.sys.inst < stop.inst && l.sys.macroInst < stop.macroInst &&
    l.sys.committedMarkers < stopMarker
  -- only the clock server writes the reference cycle, and it is clocked before it is cached
  body l it := some
    { sys := { l.sys.worked it.work with nanosecond := it.nanosecond, cycle := it.cycle }
      sysCycle := it.cycle }

/-- `ASIM_MULTI_CHIP_SYSTEM_CLASS::SYS_Execute`. -/
def multiChipExecute (stop : Counters) (warmUp : Work) (s : Sys) (its : List Iteration) :
    Execution :=
  let stopMarker := s.committedMarkers + 1
  execution (multiChipLoop stop stopMarker) MultiChipLocals.sys stopMarker
    { sys := s.worked warmUp, sysCycle := s.cycle } its

/-- The three systems. -/
inductive SystemClass
  | ape
  | singleChip
  | multiChip
  deriving DecidableEq, Repr

namespace SystemClass

/-- `SYS_Nanosecond`: only the multi chip system overrides the base class, which returns 0. -/
def nanosecond : SystemClass → Sys → UInt64
  | .multiChip, s => s.nanosecond
  | .ape, _ | .singleChip, _ => 0

/-- The counters the scheduler loop reads. -/
def counters (c : SystemClass) (s : Sys) : Counters where
  nanosecond := c.nanosecond s
  cycle := s.cycle
  inst := s.inst
  macroInst := s.macroInst
  packet := s.receivedPkt

def sysExecute (maxIdleCycles : UInt64) (warmUp : Work) :
    SystemClass → Counters → Sys → List Iteration → Execution
  | .ape, stop, s, its => apeExecute maxIdleCycles stop s its
  | .singleChip, stop, s, its => singleChipExecute stop warmUp s its
  | .multiChip, stop, s, its => multiChipExecute stop warmUp s its

end SystemClass

/-- Some limits are honoured: no iteration starts with one of their counters at its stop value,
and `true` is returned only when one of them is there or a marker was committed. -/
def Execution.Honours (e : Execution) (counters : Sys → Counters) (stop : Counters)
    (startMarker : UInt64) (limits : CounterKind → Prop) : Prop :=
  (∀ s ∈ e.starts, ∀ k, limits k → (counters s).get k < stop.get k) ∧
  ∀ s, e.returned = some (s, true) →
    (∃ k, limits k ∧ stop.get k ≤ (counters s).get k) ∨ startMarker < s.committedMarkers

/-- A system returns `true` only in the state in which its loop ended, which no marker did. -/
theorem Sys.leave_true {s t : Sys} {stopMarker : UInt64} (h : s.leave stopMarker = (t, true)) :
    t = s ∧ s.sysBreak = false ∧ s.committedMarkers < stopMarker := by
  unfold leave at h
  by_cases hm : s.committedMarkers ≥ stopMarker
  · -- the stop breaks the system, so the value returned is `false`
    rw [if_pos hm] at h
    have hbreak : (!({ s with commitWatchMarker := -1 } : Sys).cmdStop.sysBreak) = true :=
      congrArg Prod.snd h
    simp [cmdStop] at hbreak
  · rw [if_neg hm] at h
    obtain ⟨rfl, hb⟩ := Prod.mk.inj h
    exact ⟨rfl, by simpa using hb, by simpa using hm⟩

/-- The guard of a loop stands for some limits in every state that satisfies `inv`, and the
body keeps `inv`. -/
structure Limited {σ : Type} (loop : WhileLoop σ Iteration) (sys : σ → Sys)
    (counters : Sys → Counters) (stop : Counters) (stopMarker : UInt64)
    (limits : CounterKind → Prop) (inv : σ → Prop) : Prop where
  guard : ∀ l, inv l → (loop.guard l = true ↔ (sys l).sysBreak = false ∧
    (∀ k, limits k → (counters (sys l)).get k < stop.get k) ∧
    (sys l).committedMarkers < stopMarker)
  keep : ∀ l i m, inv l → loop.guard l = true → loop.body l i = some m → inv m

theorem Limited.honours {σ : Type} {loop : WhileLoop σ Iteration} {sys : σ → Sys}
    {counters : Sys → Counters} {stop : Counters} {stopMarker startMarker : UInt64}
    {limits : CounterKind → Prop} {inv : σ → Prop} {entry : σ}
    (h : Limited loop sys counters stop stopMarker limits inv) (hentry : inv entry)
    (its : List Iteration) :
    (execution loop sys stopMarker entry its).Honours counters stop startMarker limits := by
  constructor
  · intro s hs
    obtain ⟨l, hl, rfl⟩ := List.mem_map.mp hs
    obtain ⟨hinv, hguard⟩ := WhileLoop.starts_invariant h.keep hentry hl
    exact ((h.guard l hinv).mp hguard).2.1
  · intro s hs
    obtain ⟨l, hl, hleave⟩ := Option.map_eq_some_iff.mp hs
    obtain ⟨hinv, hguard⟩ := WhileLoop.exit_invariant h.keep hentry hl
    obtain ⟨rfl, hbreak, hmarker⟩ := Sys.leave_true hleave
    left
    -- the loop was neither broken nor ended by a marker, so a limit ended it
    by_contra hnone
    have hbelow : ∀ k, limits k → (counters (sys l)).get k < stop.get k := by
      intro k hk
      by_contra hreached
      exact hnone ⟨k, hk, UInt64.not_lt.mp hreached⟩
    have htrue : loop.guard l = true := (h.guard l hinv).mpr ⟨hbreak, hbelow, hmarker⟩
    rw [htrue] at hguard
    cases hguard

/-- Being below every limit but the packet limit, counter by counter. -/
theorem below_limits_iff {c : SystemClass} {s : Sys} {stop : Counters} :
    (∀ k, k ≠ .packet → (c.counters s).get k < stop.get k) ↔
      c.nanosecond s < stop.nanosecond ∧ s.cycle < stop.cycle ∧ s.inst < stop.inst ∧
        s.macroInst < stop.macroInst := by
  constructor
  · intro h
    have hns := h .nanosecond (by decide)
    have hcycle := h .cycle (by decide)
    have hinst := h .inst (by decide)
    have hmacro := h .macroInst (by decide)
    exact ⟨hns, hcycle, hinst, hmacro⟩
  · rintro ⟨hns, hcycle, hinst, hmacro⟩ k hk
    cases k with
    | cycle => exact hcycle
    | nanosecond => exact hns
    | inst => exact hinst
    | macroInst => exact hmacro
    | packet => exact absurd rfl hk

section
variable {stop : Counters} {stopMarker : UInt64}

/-- The APE system has no nanoseconds, so their limit is never reached. -/
theorem apeLoop_limited (maxIdleCycles : UInt64) (hns : 0 < stop.nanosecond) :
    Limited (apeLoop maxIdleCycles stop stopMarker) ApeLocals.sys SystemClass.ape.counters
      stop stopMarker (· ≠ .packet) fun _ => True where
  guard l _ := by
    rw [below_limits_iff]
    simp [apeLoop, SystemClass.nanosecond, hns, and_assoc]
  keep := fun _ _ _ _ _ _ => trivial

theorem singleChipLoop_limited (hns : 0 < stop.nanosecond) :
    Limited (singleChipLoop stop stopMarker) id SystemClass.singleChip.counters
      stop stopMarker (· ≠ .packet) fun _ => True where
  guard s _ := by
    rw [below_limits_iff]
    simp [singleChipLoop, SystemClass.nanosecond, hns, and_assoc]
  keep := fun _ _ _ _ _ _ => trivial

/-- The cached cycle is the reference cycle whenever the guard of the multi chip loop is read. -/
theorem multiChipLoop_limited :
    Limited (multiChipLoop stop stopMarker) MultiChipLocals.sys SystemClass.multiChip.counters
      stop stopMarker (· ≠ .packet) fun l => l.sysCycle = l.sys.cycle where
  guard l hcycle := by
    rw [below_limits_iff]
    simp [multiChipLoop, SystemClass.nanosecond, hcycle, and_assoc]
  keep := by
    intro l it m _ _ hbody
    obtain rfl := Option.some.inj hbody
    rfl

end

/-- Each system honours the nanosecond, cycle, instruction and macro instruction limits. -/
theorem sysExecute_honours_limits (c : SystemClass) (maxIdleCycles : UInt64) (warmUp : Work)
    (stop : Counters) (s : Sys) (its : List Iteration)
    (h : ∀ k, (c.counters s).get k < stop.get k) :
    (c.sysExecute maxIdleCycles warmUp stop s its).Honours c.counters stop
      s.committedMarkers (· ≠ .packet) := by
  have hns : c.nanosecond s < stop.nanosecond := h .nanosecond
  cases c with
  | ape => exact (apeLoop_limited maxIdleCycles hns).honours trivial its
  | singleChip => exact (singleChipLoop_limited hns).honours trivial its
  | multiChip =>
    have hentry : s.cycle = (s.worked warmUp).cycle := rfl
    exact multiChipLoop_limited.honours hentry its

/-- A system that has received no packet yet and is to stop at the first one. -/
def packetRun : Sys where
  nanosecond := 0
  cycle := 0
  inst := 0
  macroInst := 0
  receivedPkt := 0
  committedMarkers := 0
  commitWatchMarker := -1
  sysBreak := false

def packetStops : Counters :=
  { nanosecond := 100, cycle := 2, inst := 5, macroInst := 5, packet := 1 }

/-- A module receives a packet in the first iteration; nothing else is counted. -/
def packetIteration : Iteration where
  work := { inst := 0, macroInst := 0, receivedPkt := 1, committedMarkers := 0, sysBreak := false }
  nanosecond := 1
  cycle := 1
  tpuActive := true

def packetWarmUp : Work :=
  { inst := 0, macroInst := 0, receivedPkt := 0, committedMarkers := 0, sysBreak := false }

theorem sysExecute_honours_limits_packetRun :
    (SystemClass.multiChip.sysExecute 256 packetWarmUp packetStops packetRun
      [packetIteration]).Honours SystemClass.multiChip.counters packetStops 0 (· ≠ .packet) :=
  sysExecute_honours_limits .multiChip 256 packetWarmUp packetStops packetRun [packetIteration]
    (by intro k; cases k <;> decide)

/-- The packet limit is passed: a second iteration starts with the packet received. -/
theorem sysExecute_ignores_packets :
    (∀ c : SystemClass, ∀ k, (c.counters packetRun).get k < packetStops.get k) ∧
    ∀ c : SystemClass, ¬ (c.sysExecute 256 packetWarmUp packetStops packetRun
      [packetIteration]).Honours c.counters packetStops 0 fun _ => True := by
  refine ⟨fun c k => by cases c <;> cases k <;> decide, fun c h => ?_⟩
  cases c with
  | ape => exact absurd (h.1 _ (.tail _ (.head _)) .packet trivial) (by decide)
  | singleChip => exact absurd (h.1 _ (.tail _ (.head _)) .packet trivial) (by decide)
  | multiChip => exact absurd (h.1 _ (.tail _ (.head _)) .packet trivial) (by decide)

end Awb.Systems
