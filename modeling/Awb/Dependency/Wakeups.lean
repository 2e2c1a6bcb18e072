import Awb.Dependency.DoublyLinked

/-! The inputs that wait for one output, and their wakeup when its dependents can issue. An input
that leaves takes the others with it when it retires before them, or when its previous consumer
is stale. -/

namespace Awb.Dependency
open Chain
variable {ι κ ν : Type} [DecidableEq ι] [DecidableEq κ]

/-- The inputs linked to an output and not removed since, after one more operation. -/
def waitingAfter (p : κ) (l : List ι) : Op ι κ ν → List ι
  | .build x (some q) _ => if q = p then l ++ [x] else l
  | .removeSingle x | .remove x | .cleanUp x => l.filter fun y => y ≠ x
  | _ => l

def waiting (p : κ) (ops : List (Op ι κ ν)) : List ι := ops.foldl (waitingAfter p) []

theorem waiting_snoc (p : κ) (ops : List (Op ι κ ν)) (op : Op ι κ ν) :
    waiting p (ops ++ [op]) = waitingAfter p (waiting p ops) op := by
  simp only [waiting, List.foldl_append, List.foldl_cons, List.foldl_nil]

/-- Inputs are built on the output while its value is not produced, and it is not cleaned up. -/
def Op.BeforeCleanUp (p : κ) (d : Deps ι κ ν) : Op ι κ ν → Prop
  | .build _ q cycle => q = some p → ¬ d.cycleValueProduced p ≤ cycle
  | .removeOutput q | .cleanUpOutput q => q ≠ p
  | _ => True

/-- A removal takes one input only: `RemoveSingleDependencyLink` finds its previous consumer
current, and a consumer that is not killed is the last one of the output. -/
def Op.RemovesOne (p : κ) (d : Deps ι κ ν) : Op ι κ ν → Prop
  | .removeSingle x => d.Current x
  | .remove x | .cleanUp x => d.producer x = some p → d.instKilled x = false →
    d.consumer p = none ∨ (d.consumer p = some x ∧ d.nextConsumer x = none)
  | _ => True

namespace Inv
variable {d d' : Deps ι κ ν} {chain : κ → List ι} {p : κ} {l : List ι}

theorem remove_waiting (h : Inv d chain) (hl : ∀ y ∈ l, y ∈ chain p) {x : ι}
    (hone : (Op.remove x : Op ι κ ν).RemovesOne p d) :
    ∀ y ∈ l.filter (fun y => y ≠ x), y ∈ chainAfter d chain (.remove x : Op ι κ ν) p := by
  intro y hy
  obtain ⟨hyl, hyx⟩ := List.mem_filter.mp hy
  replace hyx : y ≠ x := of_decide_eq_true hyx
  have hyp : y ∈ chain p := hl y hyl
  cases hprod : d.producer x with
  | none =>
    rw [chainAfter_remove_of_none hprod]
    exact hyp
  | some q =>
    cases hkill : d.instKilled x with
    | true =>
      rw [chainAfter_remove_of_killed hprod hkill]
      exact (List.mem_erase_of_ne hyx).mpr hyp
    | false =>
      rw [chainAfter_remove_of_live hprod hkill]
      by_cases hqp : p = q
      · subst hqp
        -- the other inputs would be cut off, but there are none
        exfalso
        rcases hone hprod hkill with hnone | ⟨hfirst, hlast⟩
        · have hlinked : Linked d.nextConsumer none (chain p) := hnone ▸ h.linked p
          rw [hlinked.eq_nil] at hyp
          cases hyp
        · rcases (h.linked p).pred hyp with hhead | ⟨z, hz, hzy⟩
          · exact hyx (Option.some.inj (hhead.symm.trans hfirst))
          · have hxp : x ∈ chain p := h.mem_of_consumer hfirst
            have hunique : Linked d.nextConsumer (some x) [x] := ⟨rfl, hlast⟩
            have hchain : chain p = [x] := (hfirst ▸ h.linked p).unique hunique
            rw [hchain] at hyp
            exact hyx (List.mem_singleton.mp hyp)
      · rw [Function.update_of_ne hqp]
        exact hyp

/-- The inputs that wait for the output stay on its list. -/
theorem waitingAfter_mem (h : Inv d chain) (hl : ∀ y ∈ l, y ∈ chain p) {op : Op ι κ ν}
    (hbefore : op.BeforeCleanUp p d) (hone : op.RemovesOne p d) :
    ∀ y ∈ waitingAfter p l op, y ∈ chainAfter d chain op p := by
  cases op with
  | build x prod cycle =>
    cases prod with
    | none => exact hl
    | some q =>
      intro y hy
      change y ∈ (if q = p then l ++ [x] else l) at hy
      change y ∈ (if d.cycleValueProduced q ≤ cycle then chain
        else Function.update chain q (chain q ++ [x])) p
      by_cases hqp : q = p
      · subst hqp
        rw [if_pos rfl] at hy
        rw [if_neg (hbefore rfl), Function.update_self]
        rcases List.mem_append.mp hy with hy | hy
        · exact List.mem_append_left [x] (hl y hy)
        · exact List.mem_append_right (chain q) hy
      · rw [if_neg hqp] at hy
        split
        · exact hl y hy
        · rw [Function.update_of_ne (Ne.symm hqp)]
          exact hl y hy
  | removeSingle x =>
    intro y hy
    obtain ⟨hyl, hyx⟩ := List.mem_filter.mp hy
    exact (List.mem_erase_of_ne (of_decide_eq_true hyx)).mpr (hl y hyl)
  | remove x => exact h.remove_waiting hl hone
  | cleanUp x => exact h.remove_waiting hl hone
  | removeOutput q =>
    intro y hy
    change y ∈ Function.update chain q [] p
    rw [Function.update_of_ne (Ne.symm hbefore)]
    exact hl y hy
  | cleanUpOutput q =>
    intro y hy
    change y ∈ Function.update chain q [] p
    rw [Function.update_of_ne (Ne.symm hbefore)]
    exact hl y hy
  | buildOutput _ _ => exact hl
  | update _ => exact hl
  | setCycles _ _ _ _ => exact hl
  | kill _ => exact hl

variable [DecidableEq ν]

/-- `UpdateConsumersIssueTime` reaches every input on the list. -/
theorem update_ready (h : Inv d chain) (p : κ) :
    ∃ d', (Op.update p : Op ι κ ν).apply d = some d' ∧
      ∀ x ∈ chain p, d'.cycleReadyForIssue x = d.cycleDependentsCanIssue p := by
  refine ⟨_, congrArg (Option.map _) (signal_linked (h.linked p) (h.length_le p)), ?_⟩
  intro x hx
  exact if_pos hx

end Inv

variable [DecidableEq ν]

/-- No wakeup is lost in a run whose removals take one input each. -/
theorem update_wakes_waiting (p : κ) (d₀ d : Deps ι κ ν) (ops : List (Op ι κ ν))
    (hfresh : d₀.Fresh)
    (run : Lts.Run (Lts.guarded (fun d op => Op.BeforeCleanUp p d op ∧ Op.RemovesOne p d op)
      DepStep) d₀ ops d) :
    ∃ d', (Op.update p : Op ι κ ν).apply d = some d' ∧
      ∀ x ∈ waiting p ops, d'.cycleReadyForIssue x = d.cycleDependentsCanIssue p := by
  have hinv : ∃ chain, Inv d chain ∧ ∀ x ∈ waiting p ops, x ∈ chain p := by
    refine run.invariant
      (fun ops d => ∃ chain, Inv d chain ∧ ∀ x ∈ waiting p ops, x ∈ chain p)
      ⟨_, Inv.fresh hfresh, fun x hx => hx⟩ ?_
    rintro ops d op d' ⟨chain, h, hl⟩ ⟨⟨hbefore, hone⟩, hlegal, hd⟩
    have hcur : ∀ x, op = .removeSingle x → d.Current x := by
      rintro x rfl
      exact hone
    obtain ⟨e, he, hinv⟩ := h.apply op hlegal hcur
    obtain rfl := Option.some.inj (he.symm.trans hd)
    refine ⟨chainAfter d chain op, hinv, ?_⟩
    rw [waiting_snoc]
    exact h.waitingAfter_mem hl hbefore hone
  obtain ⟨chain, h, hl⟩ := hinv
  obtain ⟨d', hd', hready⟩ := h.update_ready p
  exact ⟨d', hd', fun x hx => hready x (hl x hx)⟩

/-- Removals of killed inputs only, by the code that searches the list from its output. -/
def Op.killedOnly (d : Deps ι κ ν) : Op ι κ ν → Bool
  | .removeSingle _ => false
  | .remove x | .cleanUp x => d.instKilled x
  | _ => true

omit [DecidableEq ι] [DecidableEq κ] [DecidableEq ν] in
theorem removesOne_of_killedOnly (p : κ) {d : Deps ι κ ν} {op : Op ι κ ν}
    (h : op.killedOnly d = true) : op.RemovesOne p d := by
  cases op with
  | removeSingle x => cases h
  | remove x =>
    intro _ hlive
    cases h.symm.trans hlive
  | cleanUp x =>
    intro _ hlive
    cases h.symm.trans hlive
  | _ => trivial

instance (p : κ) (d : Deps ι κ ν) : (op : Op ι κ ν) → Decidable (op.BeforeCleanUp p d)
  | .build _ q cycle => inferInstanceAs (Decidable (q = some p → ¬ d.cycleValueProduced p ≤ cycle))
  | .removeOutput q | .cleanUpOutput q => inferInstanceAs (Decidable (q ≠ p))
  | .removeSingle _ | .remove _ | .cleanUp _ | .buildOutput _ _ | .update _ | .setCycles _ _ _ _
  | .kill _ => isTrue trivial

/-- Three inputs wait for the output; the first is removed before the output can issue. -/
def wakeupRun : List (Op Nat Nat Nat) :=
  [.build 0 (some 0) 5, .build 1 (some 0) 6, .build 2 (some 0) 7, .cleanUp 0,
    .setCycles 0 12 10 11]

theorem update_wakes_waiting_killed :
    ∃ d d', Lts.Run (Lts.guarded (fun d op => Op.BeforeCleanUp 0 d op ∧ Op.RemovesOne 0 d op)
        DepStep) created (.kill 0 :: wakeupRun) d ∧
      (Op.update 0 : Op Nat Nat Nat).apply d = some d' ∧
      ∀ x ∈ waiting 0 (.kill 0 :: wakeupRun),
        d'.cycleReadyForIssue x = d.cycleDependentsCanIssue 0 := by
  have hrun : ∃ d, (.kill 0 :: wakeupRun).foldlM
      (Deps.step fun d op => op.BeforeCleanUp 0 d && op.killedOnly d) created = some d :=
    Option.isSome_iff_exists.mp (by decide +kernel)
  obtain ⟨d, hd⟩ := hrun
  have run : Lts.Run (Lts.guarded (fun d op => Op.BeforeCleanUp 0 d op ∧ Op.RemovesOne 0 d op)
      DepStep) created (.kill 0 :: wakeupRun) d := by
    apply Lts.Run.of_foldlM _ hd
    intro d op d' hstep
    obtain ⟨hok, hdep⟩ := depStep_of_step hstep
    obtain ⟨hbefore, hkilled⟩ := Bool.and_eq_true_iff.mp hok
    exact ⟨⟨of_decide_eq_true hbefore, removesOne_of_killedOnly 0 hkilled⟩, hdep⟩
  obtain ⟨d', hd', hready⟩ := update_wakes_waiting 0 created d _ created_fresh run
  exact ⟨d, d', run, hd', hready⟩

/-- The same consumer takes the two others with it when it retires. -/
theorem retired_consumer_loses_wakeups :
    ∃ d d', Lts.Run DepStep created wakeupRun d ∧
      (Op.update 0 : Op Nat Nat Nat).apply d = some d' ∧ waiting 0 wakeupRun = [1, 2] ∧
      ∀ x ∈ waiting 0 wakeupRun, d'.cycleReadyForIssue x ≠ d.cycleDependentsCanIssue 0 := by
  have hrun : (wakeupRun.foldlM (Deps.step fun _ _ => true) created).any
      (fun d => ((Op.update 0 : Op Nat Nat Nat).apply d).any fun d' =>
        (waiting 0 wakeupRun).all fun x =>
          d'.cycleReadyForIssue x ≠ d.cycleDependentsCanIssue 0) = true := by
    decide +kernel
  obtain ⟨d, hd, hupdate⟩ := (Option.any_eq_true _ _).mp hrun
  obtain ⟨d', hd', hready⟩ := (Option.any_eq_true _ _).mp hupdate
  have run := Lts.Run.of_foldlM (fun _ _ _ h => (depStep_of_step h).2) hd
  refine ⟨d, d', run, hd', by decide, fun x hx => ?_⟩
  exact of_decide_eq_true (List.all_eq_true.mp hready x hx)

end Awb.Dependency
