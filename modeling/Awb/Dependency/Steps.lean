import Awb.Dependency.Effects

/-! The lists of consumers after each operation. Only `RemoveSingleDependencyLink` relies on the
previous consumers, so only it needs them to be current. -/

namespace Awb.Dependency
open Chain
variable {ι κ ν : Type} [DecidableEq ι]

/-- What an operation makes of the lists of consumers. -/
def chainAfter [DecidableEq κ] (d : Deps ι κ ν) (chain : κ → List ι) : Op ι κ ν → κ → List ι
  | .build x (some p) cycle => if d.cycleValueProduced p ≤ cycle then chain
    else Function.update chain p (chain p ++ [x])
  | .removeSingle x => fun p => (chain p).erase x
  | .remove x | .cleanUp x => match d.producer x with
    | none => chain
    | some q => if d.instKilled x then fun p => (chain p).erase x else Function.update chain q []
  | .removeOutput q | .cleanUpOutput q => Function.update chain q []
  | _ => chain

section
variable [DecidableEq κ] {d : Deps ι κ ν} {chain : κ → List ι} {x : ι} {q : κ}

theorem chainAfter_remove_of_none (h : d.producer x = none) :
    chainAfter d chain (.remove x : Op ι κ ν) = chain := by
  simp only [chainAfter, h]

theorem chainAfter_remove_of_killed (h : d.producer x = some q) (hkill : d.instKilled x = true) :
    chainAfter d chain (.remove x : Op ι κ ν) = fun p => (chain p).erase x := by
  simp only [chainAfter, h, hkill, if_true]

theorem chainAfter_remove_of_live (h : d.producer x = some q) (hlive : d.instKilled x = false) :
    chainAfter d chain (.remove x : Op ι κ ν) = Function.update chain q [] := by
  simp only [chainAfter, h, hlive, Bool.false_eq_true, if_false]

end

namespace Inv
variable {d d' : Deps ι κ ν} {chain : κ → List ι} {x : ι} {p q : κ}

theorem nullInst (h : Inv d chain) (x : ι) : Inv (d.nullInst x) chain :=
  h.kept rfl rfl (fun _ _ _ => rfl) (fun _ _ hy => hy) (List.Subset.refl _)

theorem without_killed (h : Inv d chain) (x : ι) :
    Inv (d.without x (Function.update d.prevConsumer x none)) fun p => (chain p).erase x := by
  refine h.erase x (fun _ => rfl) (fun _ => rfl) rfl ?_ rfl
  intro y z hz
  obtain ⟨hyx, hz⟩ := update_none_some hz
  exact ⟨hyx, .inl hz⟩

theorem without_single (h : Inv d chain) (x : ι) :
    Inv (d.without x fun y => if y = x then none
      else if d.nextConsumer x = some y then d.prevConsumer x else d.prevConsumer y)
      fun p => (chain p).erase x := by
  refine h.erase x (fun _ => rfl) (fun _ => rfl) rfl ?_ rfl
  intro y z hz
  have hz' : (if y = x then none else if d.nextConsumer x = some y then d.prevConsumer x
    else d.prevConsumer y) = some z := hz
  by_cases hyx : y = x
  · rw [if_pos hyx] at hz'
    cases hz'
  · rw [if_neg hyx] at hz'
    split at hz'
    · rename_i hxy
      exact ⟨hyx, .inr ⟨hxy, hz'⟩⟩
    · exact ⟨hyx, .inl hz'⟩

/-- An input that was not hooked up has its producer and its cycle set at most. -/
theorem unhooked (h : Inv d chain) (hx : x ∉ d.built) (prod : Option κ) (cycle : UInt64) :
    Inv ((({ d with built := x :: d.built } : Deps ι κ ν).setProducer x prod).setReady x cycle)
      chain := by
  refine h.kept rfl rfl ?_ (fun _ _ hy => hy) (List.subset_cons_self x d.built)
  intro p y hy
  have hyx : y ≠ x := by
    rintro rfl
    exact hx (h.built p y hy)
  exact Function.update_of_ne hyx prod d.producer

variable [DecidableEq κ]

/-- The list of the producer of a live input is cut, and the input loses its producer. -/
theorem cutOff_live (h : Inv d chain) (hprod : d.producer x = some q) :
    Inv { d.cutOff q (chain q) with
      producer := Function.update d.producer x none
      prevConsumer := Function.update d.prevConsumer x none } (Function.update chain q []) := by
  refine h.cut q rfl (fun _ => rfl) ?_ ?_ rfl
  · intro p y hpq hy
    have hyx : y ≠ x := by
      rintro rfl
      exact hpq (Option.some.inj ((h.owner p y hy).symm.trans hprod))
    exact Function.update_of_ne hyx none d.producer
  · intro y z hz
    exact (update_none_some hz).2

theorem cutOff (h : Inv d chain) (q : κ) :
    Inv (d.cutOff q (chain q)) (Function.update chain q []) :=
  h.cut q rfl (fun _ => rfl) (fun _ _ _ _ => rfl) (fun _ _ hz => hz) rfl

theorem hooked (h : Inv d chain) (hx : x ∉ d.built) (hd : Hooked d d' chain x p) :
    Inv d' (Function.update chain p (chain p ++ [x])) := by
  apply h.append hx p hd.consumer hd.self hd.next hd.producer _ hd.built
  intro y z hz
  rcases hd.prev with ⟨hprev, _⟩ | ⟨e, he, _, _, hprev⟩
  · exact .inl (hprev ▸ hz)
  · rw [hprev] at hz
    by_cases hyx : y = x
    · subst hyx
      rw [Function.update_self] at hz
      obtain rfl := Option.some.inj hz
      exact .inr ⟨rfl, he⟩
    · rw [Function.update_of_ne hyx] at hz
      exact .inl hz

/-- `RemoveDependencyLinks` of an input. -/
theorem remove (h : Inv d chain) (x : ι) :
    ∃ d', d.removeDependencyLinks x = some d' ∧ d'.producer x = none ∧
      Inv d' (chainAfter d chain (.remove x : Op ι κ ν)) := by
  cases hprod : d.producer x with
  | none =>
    rw [chainAfter_remove_of_none hprod]
    refine ⟨_, h.remove_eq_of_none hprod, Function.update_self .., ?_⟩
    refine h.kept rfl rfl ?_ ?_ (List.Subset.refl _)
    · intro p y hy
      have hyx : y ≠ x := by
        rintro rfl
        exact h.loose_of_producer hprod p hy
      exact Function.update_of_ne hyx none d.producer
    · intro y z hz
      exact (update_none_some hz).2
  | some q =>
    cases hkill : d.instKilled x with
    | true =>
      rw [chainAfter_remove_of_killed hprod hkill]
      exact ⟨_, h.remove_eq_of_killed hprod hkill, Function.update_self .., h.without_killed x⟩
    | false =>
      rw [chainAfter_remove_of_live hprod hkill]
      exact ⟨_, h.remove_eq_of_live hprod hkill, Function.update_self .., h.cutOff_live hprod⟩

theorem removeOutput (h : Inv d chain) (q : κ) :
    d.removeOutputLinks q = some (d.cutOff q (chain q)) :=
  h.removeOutput_eq q (fun x hx => .inl (h.owner q x hx)) d.prevConsumer

/-- Every operation passes its assertions, and its loops end. -/
theorem apply [DecidableEq ν] (h : Inv d chain) (op : Op ι κ ν) (hlegal : op.Legal d)
    (hcur : ∀ x, op = .removeSingle x → d.Current x) :
    ∃ d', op.apply d = some d' ∧ Inv d' (chainAfter d chain op) := by
  cases op with
  | build x prod cycle =>
    cases prod with
    | none =>
      refine ⟨_, rfl, ?_⟩
      have hkeep := h.unhooked hlegal (d.producer x) cycle
      exact hkeep.kept rfl rfl (fun _ y _ => by simp [Deps.setProducer, Deps.setReady])
        (fun _ _ hy => hy) (List.Subset.refl _)
    | some p =>
      by_cases hcycle : d.cycleValueProduced p ≤ cycle
      · have hchain : chainAfter d chain (.build x (some p) cycle : Op ι κ ν) = chain :=
          if_pos hcycle
        rw [hchain]
        exact ⟨_, if_pos hcycle, h.unhooked hlegal (some p) cycle⟩
      · have hchain : chainAfter d chain (.build x (some p) cycle : Op ι κ ν) =
            Function.update chain p (chain p ++ [x]) := if_neg hcycle
        rw [hchain]
        obtain ⟨d', hd', hhooked⟩ := h.build_hooked hlegal hcycle
        exact ⟨d', hd', h.hooked hlegal hhooked⟩
  | removeSingle x =>
    exact ⟨_, h.removeSingle_eq (hcur x rfl), (h.without_single x).nullInst x⟩
  | remove x =>
    obtain ⟨d', hd', _, hinv⟩ := h.remove x
    exact ⟨d', hd', hinv⟩
  | cleanUp x =>
    obtain ⟨d', hd', hprod, hinv⟩ := h.remove x
    refine ⟨d'.nullInst x, ?_, hinv.nullInst x⟩
    change Deps.cleanUpLinks d x = _
    unfold Deps.cleanUpLinks
    rw [hd']
    simp [Option.filter, Deps.nullInst, hprod]
  | removeOutput q => exact ⟨_, h.removeOutput q, h.cutOff q⟩
  | cleanUpOutput q =>
    refine ⟨_, congrArg (Option.map _) (h.removeOutput q), ?_⟩
    exact (h.cutOff q).kept rfl rfl (fun _ _ _ => rfl) (fun _ _ hy => hy) (List.Subset.refl _)
  | buildOutput q prev =>
    exact ⟨_, rfl, h.kept rfl rfl (fun _ _ _ => rfl) (fun _ _ hy => hy) (List.Subset.refl _)⟩
  | update q =>
    refine ⟨_, congrArg (Option.map _) (signal_linked (h.linked q) (h.length_le q)), ?_⟩
    exact h.kept rfl rfl (fun _ _ _ => rfl) (fun _ _ hy => hy) (List.Subset.refl _)
  | setCycles q produced issued canIssue =>
    exact ⟨_, rfl, h.kept rfl rfl (fun _ _ _ => rfl) (fun _ _ hy => hy) (List.Subset.refl _)⟩
  | kill i =>
    exact ⟨_, rfl, h.kept rfl rfl (fun _ _ _ => rfl) (fun _ _ hy => hy) (List.Subset.refl _)⟩

end Inv

end Awb.Dependency
