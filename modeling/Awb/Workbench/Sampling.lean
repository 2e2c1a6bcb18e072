import Awb.Workbench.Commanded

/-! Sampling. `AwbSample` writes the steps of one sample in front of the list that it is executed
from, and itself behind them with one iteration less, while `ProcessBmCmds` stops after every
`AwbRun`. -/

namespace Awb.Workbench
open Awb.Classic

/-- What a command of a sample is for. -/
inductive Part
  | next
  | warmup
  | measured
  | skipped
  deriving DecidableEq, Repr

/-- One round: the parts of zero amount are left out. -/
def round (warmup run skip : Nat) : List (Part × Cmd) :=
  (if warmup > 0 then
    [(.warmup, .awbStats "off" "stats.out"), (.warmup, .awbRun .inst warmup)] else []) ++
  (if run > 0 then
    [(.measured, .awbStats "on" "stats.out"), (.measured, .awbRun .inst run),
      (.measured, .awbStats "off" "stats.out")] else []) ++
  (if skip > 0 then
    [(.skipped, .awbStats "off" "stats.out"), (.skipped, .awbBeginDrain),
      (.skipped, .awbRun .cycle 1000), (.skipped, .awbNewSkip "all" skip (-1)),
      (.skipped, .awbEndDrain)] else [])

/-- All rounds, each of them behind the command that writes it. -/
def sampling (warmup run skip : Nat) : Nat → List (Part × Cmd)
  | 0 => [(.next, .awbSample warmup run skip (some 0))]
  | n + 1 => (.next, .awbSample warmup run skip (some (n + 1))) ::
      (round warmup run skip ++ sampling warmup run skip n)

/-- The commands that a trace evaluates, oldest first. -/
def evaluated (tr : List Label) : List Cmd := tr.filterMap fun
  | .eval cmd _ => some cmd
  | _ => none

/-- `statsOn`, which `PmState unsuspend` sets and `PmState suspend` clears. -/
def statsOn (on : Bool) : Cmd → Bool
  | .awbStats onoffdump _ =>
    if onoffdump = "on" then true else if onoffdump = "off" then false else on
  | _ => on

/-- Whether a drain has begun and has not ended. -/
def draining (drain : Bool) : Cmd → Bool
  | .awbBeginDrain => true
  | .awbEndDrain => false
  | _ => drain

def Cmd.isSample : Cmd → Bool
  | awbSample .. => true
  | _ => false

/-- Whenever the processor stops for a run, the statistics are on if and only if it is a measured
one, and in front of a measured run every drain has ended. -/
def OnlyMeasured (steps : List (Part × Cmd)) : Prop :=
  ∀ on before part type amount after, steps = before ++ (part, .awbRun type amount) :: after →
    ((before.map Prod.snd).foldl statsOn on = true ↔ part = .measured) ∧
      (part = .measured → (before.map Prod.snd).foldl draining false = false)

/-- The commands of a sampling that have been evaluated are its beginning, and the next one can be
evaluated, or all of them have been, and then the rest of the list was there. -/
def Sampled (host : Host) (cmds rest : List Cmd) (b : Bench) (tr : List Label) (b' : Bench) :
    Prop :=
  (∃ cmd todo, cmds = evaluated tr ++ cmd :: todo ∧ (b'.processing = true →
      ∃ b'', b'.turn host = .ok (some (.eval cmd b'.loop.system, b'')))) ∨
    ∃ pre post c, tr = pre ++ post ∧ Lts.Run (Step host) b pre c ∧ evaluated pre = cmds ∧
      c.bmCmds = rest ∧ Lts.Run (Step host) c post b'

variable {host : Host} {b b' : Bench} {l : Label} {cmd : Cmd} {rest : List Cmd}
  {warmup run skip n : Nat}

/-! ### What a step does to the list -/

namespace Bench

theorem QueuedActions.bmCmds (h : QueuedActions b b') : b'.bmCmds = b.bmCmds := by
  obtain ⟨cs, hcs, -⟩ := h
  exact hcs.bmCmds

theorem batchProgress_bmCmds {p : Progress} (h : b.batchProgress host p = .ok b') :
    b'.bmCmds = b.bmCmds := by
  unfold batchProgress at h
  split at h
  case h_6 => rcases checkBmCmds_ok h with rfl | rfl <;> rfl
  case h_7 => exact (threadBegin_ok h).2.1.bmCmds
  case h_8 =>
    obtain ⟨b₁, -, -, hactions, b₂, rfl, ⟨-, rfl⟩ | ⟨-, rfl⟩⟩ := threadEnd_ok h
    · exact hactions.bmCmds
    · exact hactions.bmCmds
  case h_12 => cases h
  all_goals
    obtain rfl := Except.ok.inj h
    rfl

theorem skipThread_all_ok (b : Bench) (inst : Nat) (markerID : Int) (time : Nat) :
    ∃ b', b.skipThread host "all" inst markerID "cycle_once" time = .ok b' := by
  have hall : Awb.Classic.skipThread host.toEnvironment "all" = some none := by
    rw [Awb.Classic.skipThread, if_pos (by decide)]
  rw [skipThread, if_pos rfl]
  by_cases hcnt : b.threads.countP isIdle ≠ 0
  · simp only [if_pos hcnt]
    exact ⟨_, pmSchedule_skip hall (decodeActionTime_stopAction .cycle time)⟩
  · simp only [if_neg hcnt]
    exact ⟨b, rfl⟩

theorem awbNewSkip_all_ok (b : Bench) (inst : Nat) (markerID : Int) :
    ∃ b', b.awbNewSkip host "all" inst markerID = .ok b' := by
  have hskip : ∃ b₂, skipThread host "all" inst markerID "cycle_once" (b.pmControl .cycle)
      { b with threads := b.threads.map fun thd => { thd with state := .idle } } = .ok b₂ :=
    skipThread_all_ok ..
  obtain ⟨b₂, hb₂⟩ := hskip
  refine ⟨{ b₂ with threads := b₂.threads.map fun thd => { thd with state := .running } }, ?_⟩
  unfold awbNewSkip
  simp only [changeThreadState, if_true]
  change (skipThread host "all" inst markerID "cycle_once" (b.pmControl .cycle) _ >>= _) = _
  rw [hb₂]
  rfl

end Bench

theorem mem_round {part : Part} (h : (part, cmd) ∈ round warmup run skip) :
    cmd = .awbStats "on" "stats.out" ∨ cmd = .awbStats "off" "stats.out" ∨
      (∃ type amount, cmd = .awbRun type amount) ∨ cmd = .awbBeginDrain ∨
      cmd = .awbNewSkip "all" skip (-1) ∨ cmd = .awbEndDrain := by
  unfold round at h
  rcases List.mem_append.mp h with h | h
  · rcases List.mem_append.mp h with h | h
    · split_ifs at h
      · simp only [List.mem_cons, Prod.mk.injEq, List.not_mem_nil, or_false] at h
        rcases h with ⟨-, rfl⟩ | ⟨-, rfl⟩ <;> simp
      · cases h
    · split_ifs at h
      · simp only [List.mem_cons, Prod.mk.injEq, List.not_mem_nil, or_false] at h
        rcases h with ⟨-, rfl⟩ | ⟨-, rfl⟩ | ⟨-, rfl⟩ <;> simp
      · cases h
  · split_ifs at h
    · simp only [List.mem_cons, Prod.mk.injEq, List.not_mem_nil, or_false] at h
      rcases h with ⟨-, rfl⟩ | ⟨-, rfl⟩ | ⟨-, rfl⟩ | ⟨-, rfl⟩ | ⟨-, rfl⟩ <;> simp
    · cases h

/-- The commands of a round are evaluated without an error, and leave the list alone. -/
theorem eval_round {part : Part} (h : (part, cmd) ∈ round warmup run skip) (b : Bench) :
    (∃ b', b.eval host cmd = .ok b') ∧
      ∀ b', b.eval host cmd = .ok b' → b'.bmCmds = b.bmCmds := by
  rcases mem_round h with rfl | rfl | ⟨type, amount, rfl⟩ | rfl | rfl | rfl
  · exact ⟨⟨b, rfl⟩, fun b' h => by rw [Bench.awbStats_ok h]⟩
  · exact ⟨⟨b, rfl⟩, fun b' h => by rw [Bench.awbStats_ok h]⟩
  · have heval : b.eval host (.awbRun type amount) = _ := Bench.awbRun_eq type amount
    refine ⟨⟨_, heval⟩, fun b' h => ?_⟩
    obtain rfl := Except.ok.inj (heval.symm.trans h)
    rfl
  · exact ⟨⟨b, rfl⟩, fun b' h => by rw [← Except.ok.inj h]⟩
  · exact ⟨Bench.awbNewSkip_all_ok b skip (-1), fun b' h => (Bench.awbNewSkip_actions h).bmCmds⟩
  · exact ⟨⟨b, rfl⟩, fun b' h => by rw [← Except.ok.inj h]⟩

/-- A step that evaluates no command leaves the list alone. -/
theorem Step.bmCmds (h : Step host b l b') (hl : ∀ cmd counters, l ≠ .eval cmd counters) :
    b'.bmCmds = b.bmCmds := by
  cases h.move with
  | eval => exact absurd rfl (hl _ _)
  | event _ _ _ hevent => exact (Bench.batchProgress_bmCmds hevent).trans rfl
  | notify | quiet | drained | process | execute => rfl

/-- A step that evaluates a command takes it from the front of the list. -/
theorem Step.eval_cons {counters : Counters} (h : Step host b (.eval cmd counters) b') :
    ∃ rest b₁, b.bmCmds = cmd :: rest ∧ Bench.eval host cmd { b with bmCmds := rest } = .ok b₁ ∧
      b'.bmCmds = b₁.bmCmds := by
  cases h.move with
  | eval _ _ hcmds heval => exact ⟨_, _, hcmds, heval, rfl⟩

/-- `AwbSample` writes one round and itself. -/
theorem awbSample_bmCmds (hpos : 0 < warmup ∨ 0 < run ∨ 0 < skip) (b : Bench) :
    (b.awbSample warmup run skip (some (n + 1))).bmCmds =
      (round warmup run skip).map Prod.snd ++ .awbSample warmup run skip (some n) :: b.bmCmds := by
  have hcond : (warmup > 0 ∨ run > 0 ∨ skip > 0) ∧ some (n + 1) ≠ some 0 := ⟨hpos, by simp⟩
  rw [Bench.awbSample, if_pos hcond, round]
  by_cases hwarmup : warmup > 0 <;> by_cases hrun : run > 0 <;> by_cases hskip : skip > 0 <;>
    simp [hwarmup, hrun, hskip]

theorem awbSample_zero (b : Bench) : b.awbSample warmup run skip (some 0) = b := by
  rw [Bench.awbSample, if_neg (fun h => h.2 rfl)]

/-! ### Runs -/

theorem evaluated_snoc_eval (tr : List Label) (cmd : Cmd) (counters : Counters) :
    evaluated (tr ++ [.eval cmd counters]) = evaluated tr ++ [cmd] := by
  rw [evaluated, List.filterMap_append]
  rfl

theorem evaluated_snoc_other (tr : List Label) (hl : ∀ cmd counters, l ≠ .eval cmd counters) :
    evaluated (tr ++ [l]) = evaluated tr := by
  rw [evaluated, List.filterMap_append]
  cases l with
  | eval cmd counters => exact absurd rfl (hl cmd counters)
  | notify | loop | event => exact List.append_nil _

/-- What is left of a sampling: the end of a round, and the command that writes the next ones. -/
structure Left (warmup run skip n : Nat) (rest : List Cmd) (tr : List Label) (b : Bench)
    (part : List (Part × Cmd)) (m : Nat) : Prop where
  suffix : part <:+ round warmup run skip
  cmds : (sampling warmup run skip n).map Prod.snd =
    evaluated tr ++ (part ++ sampling warmup run skip m).map Prod.snd
  bmCmds : b.bmCmds = part.map Prod.snd ++ .awbSample warmup run skip (some m) :: rest

/-- The invariant: part of the sampling is left, or its last command has been evaluated. -/
def Sampling (host : Host) (warmup run skip n : Nat) (rest : List Cmd) (b : Bench)
    (tr : List Label) (b' : Bench) : Prop :=
  (∃ part m, Left warmup run skip n rest tr b' part m) ∨
    ∃ pre post c, tr = pre ++ post ∧ Lts.Run (Step host) b pre c ∧
      evaluated pre = (sampling warmup run skip n).map Prod.snd ∧ c.bmCmds = rest ∧
      Lts.Run (Step host) c post b'

theorem sampling_of_step {b₀ : Bench} {tr : List Label} (hpos : 0 < warmup ∨ 0 < run ∨ 0 < skip)
    (hrun : Lts.Run (Step host) b₀ tr b) (h : Sampling host warmup run skip n rest b₀ tr b)
    (hstep : Step host b l b') : Sampling host warmup run skip n rest b₀ (tr ++ [l]) b' := by
  rcases h with ⟨part, m, h⟩ | ⟨pre, post, c, rfl, hpre, hcmds, hc, hpost⟩
  · by_cases hl : ∀ cmd counters, l ≠ .eval cmd counters
    · refine Or.inl ⟨part, m, h.suffix, ?_, (hstep.bmCmds hl).trans h.bmCmds⟩
      rw [evaluated_snoc_other tr hl]
      exact h.cmds
    · push Not at hl
      obtain ⟨cmd, counters, rfl⟩ := hl
      obtain ⟨others, b₁, hcons, heval, hb₁⟩ := hstep.eval_cons
      cases part with
      | cons step part =>
        obtain ⟨p, first⟩ := step
        obtain ⟨rfl, rfl⟩ := List.cons.inj (hcons.symm.trans h.bmCmds)
        have hmem : (p, cmd) ∈ round warmup run skip := h.suffix.subset List.mem_cons_self
        refine Or.inl ⟨part, m, (List.suffix_cons _ part).trans h.suffix, ?_, ?_⟩
        · rw [evaluated_snoc_eval, h.cmds]
          simp
        · exact hb₁.trans ((eval_round hmem _).2 b₁ heval)
      | nil =>
        obtain ⟨rfl, rfl⟩ := List.cons.inj (hcons.symm.trans h.bmCmds)
        obtain rfl := Except.ok.inj heval
        cases m with
        | zero =>
          refine Or.inr ⟨tr ++ [_], [], b', (List.append_nil _).symm, hrun.snoc hstep, ?_, ?_, .nil⟩
          · rw [evaluated_snoc_eval, h.cmds]
            rfl
          · rw [hb₁, awbSample_zero]
        | succ m =>
          refine Or.inl ⟨round warmup run skip, m, List.suffix_rfl, ?_, ?_⟩
          · rw [evaluated_snoc_eval, h.cmds]
            simp [sampling]
          · rw [hb₁, awbSample_bmCmds hpos]
  · exact Or.inr ⟨pre, post ++ [l], c, List.append_assoc .., hpre, hcmds, hc, hpost.snoc hstep⟩

theorem sampling_of_run {tr : List Label} (hpos : 0 < warmup ∨ 0 < run ∨ 0 < skip)
    (hcmds : b.bmCmds = .awbSample warmup run skip (some n) :: rest)
    (hrun : Lts.Run (Step host) b tr b') : Sampling host warmup run skip n rest b tr b' := by
  induction hrun with
  | nil => exact Or.inl ⟨[], n, List.nil_suffix, rfl, hcmds⟩
  | snoc hrun hstep ih => exact sampling_of_step hpos hrun ih hstep

/-! ### Statistics and drains -/

/-- The steps pass the check with the given flags. -/
def Checked (on drain : Bool) : List (Part × Cmd) → Prop
  | [] => True
  | (part, cmd) :: steps =>
    (∀ type amount, cmd = .awbRun type amount →
      (on = true ↔ part = .measured) ∧ (part = .measured → drain = false)) ∧
      Checked (statsOn on cmd) (draining drain cmd) steps

theorem Checked.append {on drain : Bool} {steps steps' : List (Part × Cmd)}
    (h : Checked on drain steps) (h' : Checked ((steps.map Prod.snd).foldl statsOn on)
      ((steps.map Prod.snd).foldl draining drain) steps') : Checked on drain (steps ++ steps') := by
  induction steps generalizing on drain with
  | nil => exact h'
  | cons step steps ih => exact ⟨h.1, ih h.2 h'⟩

theorem Checked.split {on drain : Bool} {before after : List (Part × Cmd)} {part : Part}
    {type : RunType} {amount : Nat}
    (h : Checked on drain (before ++ (part, .awbRun type amount) :: after)) :
    ((before.map Prod.snd).foldl statsOn on = true ↔ part = .measured) ∧
      (part = .measured → (before.map Prod.snd).foldl draining drain = false) := by
  induction before generalizing on drain with
  | nil => exact h.1 type amount rfl
  | cons step before ih => exact ih h.2

/-- Every part of a round sets the flags that its run needs. -/
theorem checked_round (on : Bool) (warmup run skip : Nat) :
    Checked on false (round warmup run skip) ∧
      ((round warmup run skip).map Prod.snd).foldl draining false = false := by
  unfold round
  by_cases hwarmup : warmup > 0 <;> by_cases hrun : run > 0 <;> by_cases hskip : skip > 0 <;>
    simp [hwarmup, hrun, hskip, Checked, statsOn, draining]

theorem checked_sampling (on : Bool) (warmup run skip n : Nat) :
    Checked on false (sampling warmup run skip n) := by
  induction n generalizing on with
  | zero =>
    refine ⟨fun _ _ h => ?_, trivial⟩
    cases h
  | succ n ih =>
    refine ⟨fun _ _ h => ?_, (checked_round on warmup run skip).1.append ?_⟩
    · cases h
    · exact (checked_round on warmup run skip).2.symm ▸ ih _

theorem onlyMeasured_sampling (warmup run skip n : Nat) :
    OnlyMeasured (sampling warmup run skip n) := by
  intro on before part type amount after h
  have hchecked := checked_sampling on warmup run skip n
  rw [h] at hchecked
  exact hchecked.split

/-- Besides the commands that write them there are just the rounds. -/
theorem rounds_sampling (warmup run skip n : Nat) :
    ((sampling warmup run skip n).map Prod.snd).filter (fun cmd => !cmd.isSample) =
      (List.replicate n ((round warmup run skip).map Prod.snd)).flatten := by
  have hround : ((round warmup run skip).map Prod.snd).filter (fun cmd => !cmd.isSample) =
      (round warmup run skip).map Prod.snd := by
    refine List.filter_eq_self.mpr fun cmd hcmd => ?_
    obtain ⟨⟨part, cmd⟩, hstep, rfl⟩ := List.mem_map.mp hcmd
    rcases mem_round hstep with rfl | rfl | ⟨type, amount, rfl⟩ | rfl | rfl | rfl <;> rfl
  induction n with
  | zero => rfl
  | succ n ih =>
    rw [sampling, List.map_cons, List.filter_cons_of_neg (by simp [Cmd.isSample]), List.map_append,
      List.filter_append, hround, ih, List.replicate_succ, List.flatten_cons]

/-! ### The result -/

theorem turn_eval (hprocessing : b.processing = true) (hcmds : b.bmCmds = cmd :: rest)
    (heval : ∀ b : Bench, ∃ b', b.eval host cmd = .ok b') :
    ∃ b', b.turn host = .ok (some (.eval cmd b.loop.system, b')) := by
  obtain ⟨b', hb'⟩ := heval { b with bmCmds := rest }
  refine ⟨{ b' with processing := !cmd.returns }, ?_⟩
  rw [Bench.turn, if_pos hprocessing]
  simp only [hcmds, hb']

theorem sampling_eq_cons (warmup run skip n : Nat) : ∃ todo,
    sampling warmup run skip n = (.next, .awbSample warmup run skip (some n)) :: todo := by
  cases n with
  | zero => exact ⟨_, rfl⟩
  | succ n => exact ⟨_, rfl⟩

/-- What is evaluated next while the sampling lasts. -/
theorem sampled_of_sampling {tr : List Label}
    (h : Sampling host warmup run skip n rest b tr b') :
    Sampled host ((sampling warmup run skip n).map Prod.snd) rest b tr b' := by
  rcases h with ⟨part, m, h⟩ | ⟨pre, post, c, htr, hpre, hcmds, hc, hpost⟩
  · cases part with
    | nil =>
      obtain ⟨todo, htodo⟩ := sampling_eq_cons warmup run skip m
      have hcmds := h.cmds
      rw [List.nil_append, htodo, List.map_cons] at hcmds
      exact Or.inl ⟨_, _, hcmds, fun hprocessing =>
        turn_eval hprocessing h.bmCmds fun b => ⟨_, rfl⟩⟩
    | cons step part =>
      obtain ⟨p, cmd⟩ := step
      have hmem : (p, cmd) ∈ round warmup run skip := h.suffix.subset List.mem_cons_self
      exact Or.inl ⟨_, _, h.cmds, fun hprocessing =>
        turn_eval hprocessing h.bmCmds fun b => (eval_round hmem b).1⟩
  · exact Or.inr ⟨pre, post, c, htr, hpre, hcmds, hc, hpost⟩

/-- A processor in front of one sample. -/
def sampledOnce : Bench where
  loop := { start ⟨0, 0, 0, 0, 0⟩ ⟨0, 0, 0, 0, 0⟩ with phase := .inform }
  bmCmds := [.awbSample 2 3 0 (some 1), .awbExit]
  bmStop := .empty
  processing := true

/-- The model stops after 2 instructions, and again after 3 more. -/
def sampledOnceInputs : List Input :=
  List.replicate 14 (.turn ⟨0, 0, 0, 0, 0⟩) ++ List.replicate 20 (.turn ⟨0, 1, 2, 2, 0⟩) ++
    List.replicate 20 (.turn ⟨0, 2, 5, 5, 0⟩)

end Awb.Workbench
