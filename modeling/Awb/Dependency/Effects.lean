import Awb.Dependency.Chains

/-! What each operation on the dependency objects returns, field by field, while the lists of
consumers are intact. -/

namespace Awb.Dependency
open Chain
variable {ι κ ν : Type} [DecidableEq ι]

/-- The previous consumer of an input is the one that points to it, and a first input has none. -/
structure Deps.Current (d : Deps ι κ ν) (x : ι) : Prop where
  pred : ∀ y, d.nextConsumer y = some x → d.prevConsumer x = some y
  first : ∀ p, d.consumer p = some x → d.prevConsumer x = none

/-- The objects after an input has left its list, with the previous consumers that result. -/
def Deps.without (d : Deps ι κ ν) (x : ι) (prev : ι → Option ι) : Deps ι κ ν :=
  { d with
    nextConsumer := fun y => if y = x then none
      else if d.nextConsumer y = some x then d.nextConsumer x else d.nextConsumer y
    prevConsumer := prev
    producer := Function.update d.producer x none
    consumer := fun p => if d.consumer p = some x then d.nextConsumer x else d.consumer p }

/-- The objects after the list of an output was cut. -/
def Deps.cutOff [DecidableEq κ] (d : Deps ι κ ν) (q : κ) (l : List ι) : Deps ι κ ν :=
  { d with
    nextConsumer := fun y => if y ∈ l then none else d.nextConsumer y
    consumer := Function.update d.consumer q none }

/-- The links of `without`, seen from the consumer that pointed to the input, if there is one. -/
theorem without_next {d : Deps ι κ ν} {x : ι} {pred : Option ι}
    (hpred : ∀ y, d.nextConsumer y = some x ↔ pred = some y) :
    (fun y => if y = x then none
      else if d.nextConsumer y = some x then d.nextConsumer x else d.nextConsumer y) =
    Function.update (match pred with
      | some y => Function.update d.nextConsumer y (d.nextConsumer x)
      | none => d.nextConsumer) x none := by
  funext y
  by_cases hyx : y = x
  · simp [hyx]
  rw [Function.update_of_ne hyx, if_neg hyx]
  simp only [hpred y]
  cases pred with
  | none => simp
  | some z =>
    by_cases hyz : y = z
    · simp [hyz]
    · simp [hyz, Ne.symm hyz]

open Deps

namespace Inv
variable {d : Deps ι κ ν} {chain : κ → List ι} {x y : ι} {p q : κ}

theorem removeSingle_next (h : Inv d chain) (hcur : d.Current x) :
    Function.update (match d.prevConsumer x with
      | some p => Function.update d.nextConsumer p (d.nextConsumer x)
      | none => d.nextConsumer) x none =
    fun y => if y = x then none
      else if d.nextConsumer y = some x then d.nextConsumer x else d.nextConsumer y := by
  funext y
  by_cases hyx : y = x
  · simp [hyx]
  rw [Function.update_of_ne hyx, if_neg hyx]
  cases hprev : d.prevConsumer x with
  | none =>
    have hy : d.nextConsumer y ≠ some x := fun hy => by
      cases hprev.symm.trans (hcur.pred y hy)
    simp [hy]
  | some z =>
    by_cases hyz : y = z
    · subst hyz
      by_cases hy : d.nextConsumer y = some x
      · simp [hy]
      · -- a previous consumer that does not point here is on no list, as the input itself
        have hloose : ∀ p, x ∉ chain p := by
          intro p hx
          rcases (h.linked p).pred hx with hhead | ⟨w, _, hw⟩
          · cases hprev.symm.trans (hcur.first p hhead)
          · obtain rfl : y = w := Option.some.inj (hprev.symm.trans (hcur.pred w hw))
            exact hy hw
        have hyloose : ∀ p, y ∉ chain p := fun p hp => hloose p (h.prev x y p hprev hp)
        simp [h.loose x hloose, h.loose y hyloose]
    · have hy : d.nextConsumer y ≠ some x := fun hy =>
        hyz (Option.some.inj ((hcur.pred y hy).symm.trans hprev))
      simp [hyz, hy]

theorem removeSingle_prev (d : Deps ι κ ν) (x : ι) :
    Function.update (match d.nextConsumer x with
      | some n => Function.update d.prevConsumer n (d.prevConsumer x)
      | none => d.prevConsumer) x none =
    fun y => if y = x then none
      else if d.nextConsumer x = some y then d.prevConsumer x else d.prevConsumer y := by
  funext y
  by_cases hyx : y = x
  · simp [hyx]
  rw [Function.update_of_ne hyx, if_neg hyx]
  cases hnext : d.nextConsumer x with
  | none => simp
  | some n =>
    by_cases hyn : y = n
    · simp [hyn]
    · simp [hyn, Ne.symm hyn]

variable [DecidableEq κ]

theorem without_consumer (h : Inv d chain) (hp : d.producer x = some p) :
    (fun q => if d.consumer q = some x then d.nextConsumer x else d.consumer q) =
      if d.consumer p = some x then Function.update d.consumer p (d.nextConsumer x)
      else d.consumer := by
  funext q
  by_cases hq : d.consumer q = some x
  · obtain ⟨rfl, _⟩ := (h.mem_iff_of_producer hp q).mp (h.mem_of_consumer hq)
    simp [hq]
  · by_cases hpx : d.consumer p = some x
    · have hqp : q ≠ p := by
        rintro rfl
        exact hq hpx
      simp [hq, hpx, hqp]
    · simp [hq, hpx]

/-- `RemoveSingleDependencyLink` of an input whose previous consumer is current. -/
theorem removeSingle_eq (h : Inv d chain) (hcur : d.Current x) :
    d.removeSingleDependencyLink x = some ((d.without x fun y => if y = x then none
      else if d.nextConsumer x = some y then d.prevConsumer x else d.prevConsumer y).nullInst
        x) := by
  have hnext := h.removeSingle_next hcur
  have hprev := removeSingle_prev d x
  have hdone : ∀ c : κ → Option ι,
      c = (fun q => if d.consumer q = some x then d.nextConsumer x else d.consumer q) →
      ((match d.prevConsumer x with
        | some p => Deps.setNext (match d.nextConsumer x with
          | some n => Deps.setPrev { d.nullInst x with consumer := c } n (d.prevConsumer x)
          | none => { d.nullInst x with consumer := c }) p (d.nextConsumer x)
        | none => match d.nextConsumer x with
          | some n => Deps.setPrev { d.nullInst x with consumer := c } n (d.prevConsumer x)
          | none => { d.nullInst x with consumer := c }).setNext x none).setPrev x none =
      { (d.without x fun y => if y = x then none
        else if d.nextConsumer x = some y then d.prevConsumer x else d.prevConsumer y).nullInst
          x with producer := d.producer } := by
    rintro c rfl
    unfold Deps.without
    rw [← hnext, ← hprev]
    cases d.prevConsumer x <;> cases d.nextConsumer x <;> rfl
  unfold Deps.removeSingleDependencyLink
  cases hprod : d.producer x with
  | none =>
    have hloose := h.loose_of_producer hprod
    have hsame : d.consumer =
        fun q => if d.consumer q = some x then d.nextConsumer x else d.consumer q := by
      funext q
      rw [if_neg (h.consumer_ne_of_loose hloose q)]
    exact congrArg (fun e : Deps ι κ ν => some (e.setProducer x none)) (hdone _ hsame)
  | some p =>
    have hcons := h.without_consumer hprod
    by_cases hp : d.consumer p = some x
    · rw [if_pos hp] at hcons
      have hhead : (d.nullInst x).consumer p = some x := hp
      simp only [hhead, hcur.first p hp, if_true, Option.map_some]
      rw [hcur.first p hp] at hdone
      exact congrArg (fun e : Deps ι κ ν => some (e.setProducer x none)) (hdone _ hcons.symm)
    · rw [if_neg hp] at hcons
      have hhead : (d.nullInst x).consumer p ≠ some x := hp
      simp only [hhead, if_false, Option.map_some]
      exact congrArg (fun e : Deps ι κ ν => some (e.setProducer x none)) (hdone _ hcons.symm)

/-- `OUTPUT_DEP_CLASS::RemoveDependencyLinks`; some inputs may have lost their producer. -/
theorem removeOutput_eq (h : Inv d chain) {producer : ι → Option κ} (q : κ)
    (hp : ∀ x ∈ chain q, producer x = some q ∨ producer x = none) (prev : ι → Option ι) :
    Deps.removeOutputLinks { d with producer := producer, prevConsumer := prev } q =
      some { d.cutOff q (chain q) with producer := producer, prevConsumer := prev } := by
  unfold Deps.removeOutputLinks
  have hcut := cutConsumers_linked (h.linked q) (h.length_le q) hp
  exact congrArg (Option.map _) hcut

/-- `RemoveDependencyLinks` of an input without a producer. -/
theorem remove_eq_of_none (h : Inv d chain) (hprod : d.producer x = none) :
    d.removeDependencyLinks x = some ((d.setPrev x none).setProducer x none) := by
  have hnext : d.nextConsumer x = none := h.loose x (h.loose_of_producer hprod)
  unfold Deps.removeDependencyLinks
  simp [hprod, Deps.setProducer, Deps.setPrev, hnext]

/-- `RemoveDependencyLinks` of an input that is not killed. -/
theorem remove_eq_of_live (h : Inv d chain) (hprod : d.producer x = some q)
    (hlive : d.instKilled x = false) :
    d.removeDependencyLinks x = some { d.cutOff q (chain q) with
      producer := Function.update d.producer x none
      prevConsumer := Function.update d.prevConsumer x none } := by
  have hp : ∀ y ∈ chain q, Function.update d.producer x none y = some q ∨
      Function.update d.producer x none y = none := by
    intro y hy
    by_cases hyx : y = x
    · subst hyx
      exact .inr (Function.update_self ..)
    · rw [Function.update_of_ne hyx]
      exact .inl (h.owner q y hy)
  have hcut := h.removeOutput_eq q hp (Function.update d.prevConsumer x none)
  have hnext : (if x ∈ chain q then none else d.nextConsumer x) = none := by
    by_cases hx : x ∈ chain q
    · rw [if_pos hx]
    · rw [if_neg hx]
      exact h.loose x fun p hp => hx ((h.mem_iff_of_producer hprod p).mp hp).2
  have hkill : ((d.setPrev x none).setProducer x none).instKilled x = false := hlive
  unfold Deps.removeDependencyLinks
  simp only [hprod, hkill, Bool.false_eq_true, if_false]
  rw [show ((d.setPrev x none).setProducer x none).removeOutputLinks q = _ from hcut]
  simp [Option.filter, Deps.cutOff, hnext]

/-- `RemoveDependencyLinks` of a killed input, which leaves the other inputs linked. -/
theorem remove_eq_of_killed (h : Inv d chain) (hprod : d.producer x = some q)
    (hkilled : d.instKilled x = true) :
    d.removeDependencyLinks x = some (d.without x (Function.update d.prevConsumer x none)) := by
  have hcons := h.without_consumer hprod
  unfold Deps.removeDependencyLinks
  simp only [hprod, hkilled, if_true, setPrev_nextConsumer, setPrev_consumer, setPrev_fuel,
    setPrev_instKilled, setProducer_nextConsumer, setProducer_consumer, setProducer_fuel,
    setProducer_instKilled]
  by_cases hx : x ∈ chain q
  · -- whatever points to the input is on the list of the same output
    have hq : ∀ y, d.nextConsumer y = some x → y ∈ chain q := by
      intro y hy
      obtain ⟨p, hyp, hxp⟩ := h.exists_chain hy
      obtain rfl : p = q := h.chain_eq hxp hx
      exact hyp
    have hfound := findConsumer_mem (y := none) (h.linked q) (h.length_le q) hx
    rcases hfound with ⟨hhead, hfind⟩ | ⟨p, hp, hpx, hfind⟩
    · have hnone : ∀ y, d.nextConsumer y = some x ↔ (none : Option ι) = some y := by
        intro y
        refine ⟨fun hy => ?_, fun hy => by cases hy⟩
        have hl : Linked d.nextConsumer (some x) (chain q) := hhead ▸ h.linked q
        exact absurd hy (hl.head_ne (hq y hy))
      rw [if_pos hhead] at hcons
      rw [Deps.fuel, hfind]
      unfold Deps.without
      rw [without_next hnone, hcons]
      simp [hhead, Deps.setConsumer, Deps.setNext, Deps.setProducer, Deps.setPrev]
    · have hpred : ∀ y, d.nextConsumer y = some x ↔ some p = some y := by
        intro y
        constructor
        · intro hy
          exact congrArg some ((h.linked q).pred_unique hp (hq y hy) hpx hy)
        · intro hy
          obtain rfl := Option.some.inj hy
          exact hpx
      have hhead : d.consumer q ≠ some x := by
        intro hhead
        have hl : Linked d.nextConsumer (some x) (chain q) := hhead ▸ h.linked q
        exact hl.head_ne hp hpx
      rw [if_neg hhead] at hcons
      rw [Deps.fuel, hfind]
      unfold Deps.without
      rw [without_next hpred, hcons]
      simp [Deps.setNext, Deps.setProducer, Deps.setPrev]
  · have hloose : ∀ p, x ∉ chain p := fun p hp => hx ((h.mem_iff_of_producer hprod p).mp hp).2
    have hnone : ∀ y, d.nextConsumer y = some x ↔ (none : Option ι) = some y :=
      fun y => ⟨fun hy => absurd hy (h.next_ne_of_loose hloose y), fun hy => by cases hy⟩
    obtain ⟨y', hfind⟩ := findConsumer_not_mem (y := none) (h.linked q) (h.length_le q) hx
    rw [if_neg (h.consumer_ne_of_loose hloose q)] at hcons
    rw [Deps.fuel, hfind]
    have hnext : d.nextConsumer x = none := h.loose x hloose
    have hself : Function.update d.nextConsumer x none = d.nextConsumer := by
      rw [← hnext]
      exact Function.update_eq_self x d.nextConsumer
    unfold Deps.without
    rw [without_next hnone, hcons]
    simp [Deps.setProducer, Deps.setPrev, hnext, hself]

/-- What `BuildRAWDependencyGraph` changes when it puts an input on the list of an output. -/
structure Hooked (d d' : Deps ι κ ν) (chain : κ → List ι) (x : ι) (p : κ) : Prop where
  consumer : d'.consumer = Function.update d.consumer p
    (if d.consumer p = none then some x else d.consumer p)
  self : d'.nextConsumer x = none
  next : ∀ y, y ≠ x → d'.nextConsumer y =
    if y ∈ chain p ∧ d.nextConsumer y = none then some x else d.nextConsumer y
  producer : d'.producer = Function.update d.producer x (some p)
  prev : d'.prevConsumer = d.prevConsumer ∧ d.consumer p = none ∨
    ∃ e ∈ chain p, d.nextConsumer e = none ∧ d.consumer p ≠ none ∧
      d'.prevConsumer = Function.update d.prevConsumer x (some e)
  built : d'.built = x :: d.built

theorem build_hooked (h : Inv d chain) {cycle : UInt64} (hx : x ∉ d.built)
    (hcycle : ¬ d.cycleValueProduced p ≤ cycle) :
    ∃ d', d.buildRAWDependencyGraph x (some p) cycle = some d' ∧ Hooked d d' chain x p := by
  -- the cycle that may be set last is no part of the lists
  have hready : ∀ e : Deps ι κ ν, Hooked d e chain x p → Hooked d
      (if e.cycleIssued p ≠ uint64Max then e.setReady x (e.cycleDependentsCanIssue p) else e)
      chain x p := by
    intro e he
    split
    · exact ⟨he.consumer, he.self, he.next, he.producer, he.prev, he.built⟩
    · exact he
  unfold buildRAWDependencyGraph
  simp only [hcycle, if_false]
  cases hcons : d.consumer p with
  | none =>
    have hlinked : Linked d.nextConsumer none (chain p) := hcons ▸ h.linked p
    have hempty : chain p = [] := hlinked.eq_nil
    refine ⟨_, rfl, hready _ ⟨?_, ?_, ?_, rfl, .inl ⟨rfl, hcons⟩, rfl⟩⟩
    · rw [hcons]
      rfl
    · exact Function.update_self ..
    · intro y hy
      simp [setNext, setProducer, setConsumer, hempty, hy]
  | some c =>
    have hlinked : Linked d.nextConsumer (some c) (chain p) := hcons ▸ h.linked p
    have hlen : (chain p).length ≤ d.built.length + 1 := Nat.le_succ_of_le (h.length_le p)
    obtain ⟨e, he, hend, hlast⟩ := lastConsumer_linked hlinked hlen
    have hex : e ≠ x := by
      rintro rfl
      exact hx (h.built p e he)
    have hunique : ∀ y, y ∈ chain p ∧ d.nextConsumer y = none ↔ y = e := by
      intro y
      refine ⟨fun hy => hlinked.end_unique hy.1 he hy.2 hend, ?_⟩
      rintro rfl
      exact ⟨he, hend⟩
    have hfuel : lastConsumer d.nextConsumer
        ({ d with built := x :: d.built } : Deps ι κ ν).fuel c = some e := hlast
    simp only [hfuel, Option.map_some]
    refine ⟨_, rfl, hready _ ⟨?_, ?_, ?_, rfl, .inr ⟨e, he, hend, ?_, rfl⟩, rfl⟩⟩
    · rw [hcons, if_neg (by simp)]
      funext q
      by_cases hq : q = p
      · subst hq
        rw [Function.update_self]
        exact hcons
      · rw [Function.update_of_ne hq]
        rfl
    · exact Function.update_self ..
    · intro y hy
      simp only [hunique y]
      by_cases hye : y = e
      · subst hye
        simp [setNext, setProducer, setPrev, hy]
      · simp [setNext, setProducer, setPrev, hy, hye]
    · rw [hcons]
      simp

end Inv

end Awb.Dependency
