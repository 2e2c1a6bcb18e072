import Awb.Dependency.ProducerChains

/-! Runs of mappings, retirements and restorations, in which no assertion about the chains of
producers fails. -/

namespace Awb.Dependency
open Chain
variable {ι κ ν : Type}

/-- The operations on the lists of consumers. -/
def Op.OnConsumers : Op ι κ ν → Prop
  | .cleanUpOutput _ | .buildOutput _ _ | .removeSingle _ => False
  | _ => True

variable [DecidableEq κ] [DecidableEq ι]

section Consumers
variable {d d' : Deps ι κ ν} {x : ι} {p : κ}

theorem sameProducers_build {producer : Option κ} {cycle : UInt64}
    (h : d.buildRAWDependencyGraph x producer cycle = some d') : SameProducers d d' := by
  simp only [Deps.buildRAWDependencyGraph] at h
  split at h
  next => exact Option.some.inj h ▸ SameProducers.refl d
  next p =>
    split at h
    next => exact Option.some.inj h ▸ SameProducers.refl d
    next =>
      obtain ⟨e, he, hd⟩ := Option.map_eq_some_iff.mp h
      have hsame : SameProducers d e := by
        split at he
        next => exact Option.some.inj he ▸ SameProducers.refl d
        next =>
          obtain ⟨last, -, rfl⟩ := Option.map_eq_some_iff.mp he
          exact SameProducers.refl d
      refine hsame.trans ?_
      split at hd <;> exact hd ▸ SameProducers.refl e

theorem sameProducers_removeOutput (h : d.removeOutputLinks p = some d') : SameProducers d d' := by
  obtain ⟨next, -, rfl⟩ := Option.map_eq_some_iff.mp h
  exact SameProducers.refl d

theorem sameProducers_remove (h : d.removeDependencyLinks x = some d') : SameProducers d d' := by
  obtain ⟨h, -⟩ := Option.filter_eq_some_iff.mp h
  split at h
  next => exact Option.some.inj h ▸ SameProducers.refl d
  next p =>
    split at h
    next =>
      obtain ⟨found, -, hfound⟩ := Option.bind_eq_some_iff.mp h
      split at hfound
      next => exact Option.some.inj hfound ▸ SameProducers.refl d
      next =>
        split at hfound
        next => exact Option.some.inj hfound ▸ SameProducers.refl d
        next => cases hfound
      next => exact Option.some.inj hfound ▸ SameProducers.refl d
    next q =>
      have hunhooked : SameProducers d ((d.setPrev x none).setProducer x none) :=
        SameProducers.refl d
      exact hunhooked.trans (sameProducers_removeOutput h)

end Consumers

namespace DepState
variable {s : DepState ι κ ν}

/-- `Terminator` takes whole chains apart. -/
theorem terminateEntry_eq {chains : ℕ → List κ} {consumers : κ → List ι} {fuel k : ℕ}
    (hinv : Inv s.deps consumers) (h : s.EntryChains chains) (hk : k < s.table.numDependencies)
    (hfuel : (chains k).length ≤ fuel) : ∃ s' consumers', terminateEntry fuel s k = some s' ∧
      Inv s'.deps consumers' ∧ s'.EntryChains (Function.update chains k []) ∧
      s'.table.numDependencies = s.table.numDependencies := by
  have hentry : s.table.producers k = (chains k).head? := (h.linked k hk).head
  cases hchain : chains k with
  | nil =>
    have hnone : s.table.producers k = none := by rw [hentry, hchain, List.head?_nil]
    refine ⟨s, consumers, ?_, hinv, ?_, rfl⟩
    · rw [terminateEntry, hnone]
      simp only [DepTable.setEntry, ← hnone, Function.update_eq_self]
    · rw [← hchain, Function.update_eq_self]
      exact h
  | cons x l =>
    have hsome : s.table.producers k = some x := by rw [hentry, hchain, List.head?_cons]
    have hend : s.deps.nextProducer x = none := by
      have hb := h.backed k hk
      rw [hchain] at hb
      exact hb.1
    have hnever : ByInst fun (_ : Deps ι κ ν) (_ : κ) => false := fun _ _ _ _ _ => rfl
    obtain ⟨deps, hdeps, hdis, hinv'⟩ :=
      detachProducers_eq hnever hinv (h.linked k hk) (h.backed k hk) hfuel
    have htake : (chains k).takeWhile (fun _ => !false) = chains k :=
      List.takeWhile_eq_self_iff.mpr fun _ _ => rfl
    have hdrop : (chains k).dropWhile (fun _ => !false) = [] :=
      List.dropWhile_eq_nil_iff.mpr fun _ _ => rfl
    rw [htake] at hinv'
    rw [htake, hdrop] at hdis
    refine ⟨{ s with deps, table := s.table.setEntry k none }, _, ?_, hinv', ?_, rfl⟩
    · rw [hsome] at hdeps
      simp only [terminateEntry, hsome, hend, if_true, hdeps, Option.map_some]
    · exact h.dismantled hk (List.append_nil (chains k)) hdis rfl

theorem terminateEntries_isSome {chains : ℕ → List κ} {consumers : κ → List ι} {fuel : ℕ}
    (hinv : Inv s.deps consumers) (h : s.EntryChains chains)
    (hfuel : ∀ k, (chains k).length ≤ fuel) {l : List ℕ}
    (hl : ∀ k ∈ l, k < s.table.numDependencies) :
    ∃ s', l.foldlM (terminateEntry fuel) s = some s' := by
  induction l generalizing s chains consumers with
  | nil => exact ⟨s, rfl⟩
  | cons k l ih =>
    obtain ⟨t, consumers', ht, hinv', hchains, hnum⟩ :=
      terminateEntry_eq hinv h (hl k List.mem_cons_self) (hfuel k)
    obtain ⟨s', hs'⟩ := ih hinv' hchains
      (fun j => by
        by_cases hjk : j = k
        · simp [hjk]
        · rw [Function.update_of_ne hjk]
          exact hfuel j)
      fun j hj => hnum ▸ hl j (List.mem_cons_of_mem k hj)
    exact ⟨s', by rw [List.foldlM_cons, ht]; exact hs'⟩

/-- The chains of producers and the lists of consumers are well formed. -/
structure Intact (s : DepState ι κ ν) : Prop where
  producers : s.WellFormed
  consumers : ∃ consumers, Inv s.deps consumers

theorem Intact.terminator (h : s.Intact) : ∃ s', s.terminator s.mapped.length = some s' := by
  obtain ⟨hs, consumers, hinv⟩ := h
  obtain ⟨chains, hchains, hlen, -⟩ := hs.exists_chains
  exact terminateEntries_isSome hinv hchains hlen fun k hk => List.mem_range.mp hk

end DepState

variable [DecidableEq ν]

/-- They leave the chains of producers alone. -/
theorem Op.sameProducers {op : Op ι κ ν} (hop : op.OnConsumers) (h : op.apply d = some d') :
    SameProducers d d' := by
  cases op with
  | build x producer cycle => exact sameProducers_build h
  | removeSingle x => exact absurd hop id
  | remove x => exact sameProducers_remove h
  | cleanUp x =>
    obtain ⟨h, -⟩ := Option.filter_eq_some_iff.mp h
    obtain ⟨e, he, rfl⟩ := Option.map_eq_some_iff.mp h
    exact (sameProducers_remove he).trans (SameProducers.refl e)
  | removeOutput p => exact sameProducers_removeOutput h
  | cleanUpOutput p => exact absurd hop id
  | buildOutput p q => exact absurd hop id
  | update p =>
    obtain ⟨ready, -, rfl⟩ := Option.map_eq_some_iff.mp h
    exact SameProducers.refl d
  | setCycles p produced issued canIssue => exact Option.some.inj h ▸ SameProducers.refl d
  | kill i => exact Option.some.inj h ▸ SameProducers.refl d

/-- A producer is mapped to a register or retires, killed producers are restored away, and in
between something happens to the consumers or an instruction is killed. -/
inductive RegisterOp (ι κ ν : Type)
  | map (prod : κ) (virtualNum rrb : ℕ)
  | retire (prod : κ) (linksFirst : Bool)
  | restore
  | between (op : Op ι κ ν)

namespace RegisterOp

/-- A new producer with an instruction is mapped to a register there is, and what retires was
mapped. -/
def Legal (s : DepState ι κ ν) : RegisterOp ι κ ν → Prop
  | map prod virtualNum _ =>
    prod ∉ s.mapped ∧ (s.deps.instOut prod).isSome ∧ virtualNum < s.table.numDependencies
  | retire prod _ => prod ∈ s.mapped
  | restore => True
  | between op => op.OnConsumers ∧ op.Legal s.deps

def apply (s : DepState ι κ ν) : RegisterOp ι κ ν → Option (DepState ι κ ν)
  | map prod virtualNum rrb => s.mapRegister prod virtualNum rrb
  | retire prod linksFirst => s.retire prod linksFirst
  | restore => s.restoreDependencyState s.mapped.length
  | between op => (op.apply s.deps).map fun deps => { s with deps }

end RegisterOp

/-- A legal operation whose assertions hold and whose loops end. -/
def RegisterStep (s : DepState ι κ ν) (op : RegisterOp ι κ ν) (s' : DepState ι κ ν) : Prop :=
  op.Legal s ∧ op.apply s = some s'

namespace DepState
variable {s s' : DepState ι κ ν}

/-- Every legal operation passes its assertions and keeps the chains and lists. -/
theorem Intact.apply (h : s.Intact) (op : RegisterOp ι κ ν) (hlegal : op.Legal s) :
    ∃ s', op.apply s = some s' ∧ s'.Intact := by
  obtain ⟨hs, consumers, hinv⟩ := h
  cases op with
  | map x virtualNum rrb =>
    obtain ⟨hx, hinst, hvirtual⟩ := hlegal
    obtain ⟨num, hnum⟩ :=
      Option.isSome_iff_exists.mp (s.table.getRotatedRegNum_isSome rrb hvirtual)
    have hmap : (RegisterOp.map x virtualNum rrb : RegisterOp ι κ ν).apply s = some _ :=
      congrArg (Option.map _) hnum
    refine ⟨_, hmap, hs.mapRegister hx hinst hmap, consumers, ?_⟩
    exact hinv.kept rfl rfl (fun _ _ _ => rfl) (fun _ _ hy => hy) (List.Subset.refl _)
  | retire x linksFirst =>
    obtain ⟨s', consumers', hs', hinv', hr⟩ := retire_eq hinv hs x linksFirst
    exact ⟨s', hs', hs.retire hr, consumers', hinv'⟩
  | restore =>
    obtain ⟨chains, hchains, hlen, -⟩ := hs.exists_chains
    obtain ⟨s', consumers', hs', hinv', -, hr⟩ := restoreEntries_eq List.nodup_range hinv hchains
      (fun k hk => List.mem_range.mp hk) fun k _ => hlen k
    exact ⟨s', hs', hs.restore hchains hr, consumers', hinv'⟩
  | between op =>
    obtain ⟨hop, hlegal⟩ := hlegal
    have hcur : ∀ x, op = .removeSingle x → s.deps.Current x := by
      rintro x rfl
      exact absurd hop id
    obtain ⟨deps, hdeps, hinv'⟩ := hinv.apply op hlegal hcur
    exact ⟨_, congrArg (Option.map _) hdeps, hs.congr (Op.sameProducers hop hdeps), _, hinv'⟩

end DepState

/-- The chains of producers in every run, in which nothing fails. -/
theorem wellFormed_of_run (s₀ s : DepState ι κ ν) (ops : List (RegisterOp ι κ ν)) (hs : s₀.Fresh)
    (run : Lts.Run RegisterStep s₀ ops s) :
    s.WellFormed ∧ (∃ chains, s.EntryChains chains ∧
        ∀ k, (chains k).Pairwise fun x y => s.mapped.idxOf y < s.mapped.idxOf x) ∧
      (∀ op : RegisterOp ι κ ν, op.Legal s → ∃ s', op.apply s = some s') ∧
      ∃ s', s.terminator s.mapped.length = some s' := by
  have hintact : s.Intact := by
    refine run.invariant (fun _ s => s.Intact) ⟨.fresh hs, _, .fresh hs.deps⟩ ?_
    rintro _ t op t' h ⟨hlegal, ht'⟩
    obtain ⟨u, hu, hintact⟩ := h.apply op hlegal
    obtain rfl := Option.some.inj (hu.symm.trans ht')
    exact hintact
  obtain ⟨chains, hchains, -, hpairwise⟩ := hintact.producers.exists_chains
  refine ⟨hintact.producers, ⟨chains, hchains, hpairwise⟩, fun op hlegal => ?_, hintact.terminator⟩
  obtain ⟨s', hs', -⟩ := hintact.apply op hlegal
  exact ⟨s', hs'⟩

instance : (op : Op ι κ ν) → Decidable op.OnConsumers
  | .cleanUpOutput _ | .buildOutput _ _ | .removeSingle _ => isFalse id
  | .build _ _ _ | .remove _ | .cleanUp _ | .removeOutput _ | .update _ | .setCycles _ _ _ _
  | .kill _ => isTrue trivial

instance (s : DepState ι κ ν) : (op : RegisterOp ι κ ν) → Decidable (op.Legal s)
  | .map prod virtualNum _ => inferInstanceAs (Decidable
      (prod ∉ s.mapped ∧ (s.deps.instOut prod).isSome ∧ virtualNum < s.table.numDependencies))
  | .retire prod _ => inferInstanceAs (Decidable (prod ∈ s.mapped))
  | .restore => isTrue trivial
  | .between op => inferInstanceAs (Decidable (op.OnConsumers ∧ op.Legal s.deps))

/-- A table of two registers, as it is created. -/
def createdTable : DepState ℕ ℕ ℕ where
  deps := created
  table := ⟨2, 1, by decide, fun _ => none⟩
  physRegNum := fun _ => none
  mapped := []

/-- Four producers are mapped to the first register and one to the second. The second of the four
retires, the last two are killed and restored away, and the first one retires. -/
def registerRun : List (RegisterOp ℕ ℕ ℕ) :=
  [.map 0 0 0, .map 1 0 0, .map 2 0 0, .map 3 1 1, .map 4 0 0, .retire 1 true, .between (.kill 2),
    .between (.kill 4), .restore, .retire 0 false]

theorem wellFormed_of_run_createdTable :
    ∃ s, Lts.Run RegisterStep createdTable registerRun s ∧
      s.WellFormed ∧ (∃ chains, s.EntryChains chains ∧
        ∀ k, (chains k).Pairwise fun x y => s.mapped.idxOf y < s.mapped.idxOf x) ∧
      (∀ op : RegisterOp ℕ ℕ ℕ, op.Legal s → ∃ s', op.apply s = some s') ∧
      ∃ s', s.terminator s.mapped.length = some s' := by
  obtain ⟨s, hs⟩ : ∃ s, registerRun.foldlM (fun s op => if op.Legal s then op.apply s else none)
      createdTable = some s := Option.isSome_iff_exists.mp (by decide +kernel)
  have hfresh : createdTable.Fresh :=
    ⟨created_fresh, fun _ => rfl, fun _ => rfl, fun _ => rfl, fun _ => rfl, rfl⟩
  have run : Lts.Run RegisterStep createdTable registerRun s := by
    apply Lts.Run.of_foldlM _ hs
    intro t op t' hstep
    split at hstep
    next hlegal => exact ⟨hlegal, hstep⟩
    next => cases hstep
  exact ⟨s, run, wellFormed_of_run createdTable s registerRun hfresh run⟩

end Awb.Dependency
