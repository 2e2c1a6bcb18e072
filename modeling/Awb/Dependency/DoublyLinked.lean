import Awb.Dependency.Steps

/-! The lists of consumers as doubly linked lists. They stay so until a killed input is taken
out of a list from in front of another one, whose `prevConsumer` is then left behind. -/

namespace Awb.Dependency
open Chain
variable {ι κ ν : Type}

/-- An operation on a killed input that is linked finds it last on its list. -/
def Op.KeepsPrev (d : Deps ι κ ν) : Op ι κ ν → Prop
  | .remove x | .cleanUp x =>
    d.instKilled x = true → d.producer x ≠ none → d.nextConsumer x = none
  | _ => True

instance [DecidableEq ι] [DecidableEq κ] (d : Deps ι κ ν) :
    (op : Op ι κ ν) → Decidable (op.KeepsPrev d)
  | .remove x | .cleanUp x => inferInstanceAs (Decidable
      (d.instKilled x = true → d.producer x ≠ none → d.nextConsumer x = none))
  | .build _ _ _ | .removeSingle _ | .removeOutput _ | .cleanUpOutput _
  | .buildOutput _ _ | .update _ | .setCycles _ _ _ _ | .kill _ => isTrue trivial

namespace Deps
variable {d d' : Deps ι κ ν} {x : ι}

theorem Current.congr (h : d.Current x) (hnext : d'.nextConsumer = d.nextConsumer)
    (hconsumer : d'.consumer = d.consumer) (hprev : d'.prevConsumer x = d.prevConsumer x) :
    d'.Current x where
  pred y hy := by
    rw [hprev]
    exact h.pred y (hnext ▸ hy)
  first p hp := by
    rw [hprev]
    exact h.first p (hconsumer ▸ hp)

theorem current_fresh (h : d.Fresh) : d.Current x where
  pred y hy := by
    rw [h.nextConsumer y] at hy
    cases hy
  first p hp := by
    rw [h.consumer p] at hp
    cases hp

end Deps

namespace Inv
variable {d d' : Deps ι κ ν} {chain : κ → List ι} {x y z : ι} {p q : κ}

theorem current_hooked [DecidableEq ι] [DecidableEq κ] (h : Inv d chain)
    (hall : ∀ z, d.Current z) (hx : x ∉ d.built) (hd : Hooked d d' chain x p) (z : ι) :
    d'.Current z := by
  have hprev : ∀ z, z ∈ d.built → d'.prevConsumer z = d.prevConsumer z := by
    intro z hz
    have hzx : z ≠ x := by
      rintro rfl
      exact hx hz
    rcases hd.prev with ⟨hprev, _⟩ | ⟨e, _, _, _, hprev⟩
    · rw [hprev]
    · rw [hprev, Function.update_of_ne hzx]
  constructor
  · intro y hy
    have hyx : y ≠ x := by
      rintro rfl
      cases hd.self.symm.trans hy
    rw [hd.next y hyx] at hy
    split at hy
    · -- the end of the list now points to the new input
      rename_i hend
      obtain rfl := Option.some.inj hy
      rcases hd.prev with ⟨_, hnone⟩ | ⟨e, he, hnext, _, hprev⟩
      · have hl : Linked d.nextConsumer none (chain p) := hnone ▸ h.linked p
        rw [hl.eq_nil] at hend
        cases hend.1
      · obtain rfl : e = y := (h.linked p).end_unique he hend.1 hnext hend.2
        rw [hprev, Function.update_self]
    · obtain ⟨r, _, hz⟩ := h.exists_chain hy
      rw [hprev z (h.built r z hz)]
      exact (hall z).pred y hy
  · intro r hr
    rw [hd.consumer] at hr
    by_cases hrp : r = p
    · subst hrp
      rw [Function.update_self] at hr
      split at hr
      · rename_i hnone
        obtain rfl := Option.some.inj hr
        rcases hd.prev with ⟨hprev, _⟩ | ⟨_, _, _, hsome, _⟩
        · rw [hprev]
          by_contra hne
          obtain ⟨y, hy⟩ := Option.ne_none_iff_exists'.mp hne
          exact hx (h.builtPrev x y hy).1
        · exact absurd hnone hsome
      · rw [hprev z (h.built r z (h.mem_of_consumer hr))]
        exact (hall z).first r hr
    · rw [Function.update_of_ne hrp] at hr
      rw [hprev z (h.built r z (h.mem_of_consumer hr))]
      exact (hall z).first r hr

variable [DecidableEq ι]

/-- `RemoveSingleDependencyLink` hands its previous consumer on to the next one. -/
theorem current_single (hall : ∀ z, d.Current z) (z : ι) :
    (d.without x fun y => if y = x then none
      else if d.nextConsumer x = some y then d.prevConsumer x else d.prevConsumer y).Current
      z := by
  constructor
  · intro y hy
    change (if y = x then none else if d.nextConsumer y = some x then d.nextConsumer x
      else d.nextConsumer y) = some z at hy
    change (if z = x then none else if d.nextConsumer x = some z then d.prevConsumer x
      else d.prevConsumer z) = some y
    have hyx : y ≠ x := by
      rintro rfl
      simp at hy
    rw [if_neg hyx] at hy
    by_cases hyn : d.nextConsumer y = some x
    · rw [if_pos hyn] at hy
      have hpx : d.prevConsumer x = some y := (hall x).pred y hyn
      have hzx : z ≠ x := by
        rintro rfl
        exact hyx (Option.some.inj (hpx.symm.trans ((hall z).pred z hy)))
      rw [if_neg hzx, if_pos hy]
      exact hpx
    · rw [if_neg hyn] at hy
      have hzx : z ≠ x := by
        rintro rfl
        exact hyn hy
      have hpz : d.prevConsumer z = some y := (hall z).pred y hy
      have hxz : d.nextConsumer x ≠ some z := fun hxz =>
        hyx (Option.some.inj (hpz.symm.trans ((hall z).pred x hxz)))
      rw [if_neg hzx, if_neg hxz]
      exact hpz
  · intro p hp
    change (if d.consumer p = some x then d.nextConsumer x else d.consumer p) = some z at hp
    change (if z = x then none else if d.nextConsumer x = some z then d.prevConsumer x
      else d.prevConsumer z) = none
    by_cases hzx : z = x
    · rw [if_pos hzx]
    rw [if_neg hzx]
    by_cases hpx : d.consumer p = some x
    · rw [if_pos hpx] at hp
      rw [if_pos hp]
      exact (hall x).first p hpx
    · rw [if_neg hpx] at hp
      have hpz : d.prevConsumer z = none := (hall z).first p hp
      have hxz : d.nextConsumer x ≠ some z := fun hxz => by
        cases hpz.symm.trans ((hall z).pred x hxz)
      rw [if_neg hxz]
      exact hpz

/-- A killed input that is last on its list leaves no stale link. -/
theorem current_killed (hall : ∀ z, d.Current z) (hlast : d.nextConsumer x = none) (z : ι) :
    (d.without x (Function.update d.prevConsumer x none)).Current z := by
  constructor
  · intro y hy
    change (if y = x then none else if d.nextConsumer y = some x then d.nextConsumer x
      else d.nextConsumer y) = some z at hy
    change Function.update d.prevConsumer x none z = some y
    by_cases hyx : y = x
    · simp [hyx] at hy
    · rw [if_neg hyx] at hy
      by_cases hyn : d.nextConsumer y = some x
      · rw [if_pos hyn, hlast] at hy
        cases hy
      · rw [if_neg hyn] at hy
        have hzx : z ≠ x := by
          rintro rfl
          exact hyn hy
        rw [Function.update_of_ne hzx]
        exact (hall z).pred y hy
  · intro p hp
    change (if d.consumer p = some x then d.nextConsumer x else d.consumer p) = some z at hp
    change Function.update d.prevConsumer x none z = none
    by_cases hzx : z = x
    · subst hzx
      exact Function.update_self ..
    · rw [Function.update_of_ne hzx]
      by_cases hpx : d.consumer p = some x
      · rw [if_pos hpx, hlast] at hp
        cases hp
      · rw [if_neg hpx] at hp
        exact (hall z).first p hp

variable [DecidableEq κ]

/-- What is left linked after a cut was linked before it. -/
theorem current_cut (h : Inv d chain) (hall : ∀ z, d.Current z) {prev : ι → Option ι}
    (hprev : ∀ p z, p ≠ q → z ∈ chain p → prev z = d.prevConsumer z)
    (producer : ι → Option κ) (z : ι) :
    Deps.Current { d.cutOff q (chain q) with producer := producer, prevConsumer := prev } z := by
  constructor
  · intro y hy
    have hcut : (if y ∈ chain q then none else d.nextConsumer y) = some z := hy
    by_cases hyq : y ∈ chain q
    · rw [if_pos hyq] at hcut
      cases hcut
    · rw [if_neg hyq] at hcut
      obtain ⟨p, hyp, hzp⟩ := h.exists_chain hcut
      have hpq : p ≠ q := by
        rintro rfl
        exact hyq hyp
      exact (hprev p z hpq hzp).trans ((hall z).pred y hcut)
  · intro p hp
    have hcut : Function.update d.consumer q none p = some z := hp
    obtain ⟨hpq, hp⟩ := update_none_some hcut
    exact (hprev p z hpq (h.mem_of_consumer hp)).trans ((hall z).first p hp)

theorem current_remove (h : Inv d chain) (hall : ∀ z, d.Current z)
    (hkeep : (Op.remove x : Op ι κ ν).KeepsPrev d) (hd : d.removeDependencyLinks x = some d')
    (z : ι) : d'.Current z := by
  cases hprod : d.producer x with
  | none =>
    obtain rfl := Option.some.inj ((h.remove_eq_of_none hprod).symm.trans hd)
    have hloose := h.loose_of_producer hprod
    by_cases hzx : z = x
    · subst hzx
      exact ⟨fun y hy => absurd hy (h.next_ne_of_loose hloose y),
        fun p hp => absurd hp (h.consumer_ne_of_loose hloose p)⟩
    · exact (hall z).congr rfl rfl (by simp [Deps.setProducer, Deps.setPrev, hzx])
  | some q =>
    cases hkill : d.instKilled x with
    | true =>
      obtain rfl := Option.some.inj ((h.remove_eq_of_killed hprod hkill).symm.trans hd)
      have hlast : d.nextConsumer x = none := hkeep hkill (by simp [hprod])
      exact current_killed hall hlast z
    | false =>
      obtain rfl := Option.some.inj ((h.remove_eq_of_live hprod hkill).symm.trans hd)
      apply h.current_cut hall
      intro p y hpq hy
      have hyx : y ≠ x := by
        rintro rfl
        exact hpq (Option.some.inj ((h.owner p y hy).symm.trans hprod))
      exact Function.update_of_ne hyx none d.prevConsumer

theorem current_apply [DecidableEq ν] (h : Inv d chain) (hall : ∀ z, d.Current z)
    {op : Op ι κ ν} (hlegal : op.Legal d) (hkeep : op.KeepsPrev d) (hd : op.apply d = some d')
    (z : ι) : d'.Current z := by
  cases op with
  | build x prod cycle =>
    cases prod with
    | none =>
      obtain rfl := Option.some.inj hd
      exact (hall z).congr rfl rfl rfl
    | some p =>
      by_cases hcycle : d.cycleValueProduced p ≤ cycle
      · obtain rfl := Option.some.inj ((if_pos hcycle).symm.trans hd)
        exact (hall z).congr rfl rfl rfl
      · obtain ⟨e, he, hhooked⟩ := h.build_hooked hlegal hcycle
        obtain rfl := Option.some.inj (he.symm.trans hd)
        exact h.current_hooked hall hlegal hhooked z
  | removeSingle x =>
    obtain rfl := Option.some.inj ((h.removeSingle_eq (hall x)).symm.trans hd)
    exact (current_single hall z).congr rfl rfl rfl
  | remove x => exact h.current_remove hall hkeep hd z
  | cleanUp x =>
    obtain ⟨e, he, _, _⟩ := h.remove x
    have hclean : d.cleanUpLinks x = some d' := hd
    unfold Deps.cleanUpLinks at hclean
    rw [he] at hclean
    obtain ⟨hclean, _⟩ := Option.filter_eq_some_iff.mp hclean
    obtain rfl := Option.some.inj hclean
    exact (h.current_remove hall hkeep he z).congr rfl rfl rfl
  | removeOutput q =>
    obtain rfl := Option.some.inj ((h.removeOutput q).symm.trans hd)
    exact (h.current_cut hall (fun _ _ _ _ => rfl) d.producer z).congr rfl rfl rfl
  | cleanUpOutput q =>
    obtain ⟨e, he, rfl⟩ := Option.map_eq_some_iff.mp hd
    obtain rfl := Option.some.inj ((h.removeOutput q).symm.trans he)
    exact (h.current_cut hall (fun _ _ _ _ => rfl) d.producer z).congr rfl rfl rfl
  | buildOutput q prev =>
    obtain rfl := Option.some.inj hd
    exact (hall z).congr rfl rfl rfl
  | update q =>
    obtain ⟨ready, _, rfl⟩ := Option.map_eq_some_iff.mp hd
    exact (hall z).congr rfl rfl rfl
  | setCycles q produced issued canIssue =>
    obtain rfl := Option.some.inj hd
    exact (hall z).congr rfl rfl rfl
  | kill i =>
    obtain rfl := Option.some.inj hd
    exact (hall z).congr rfl rfl rfl

end Inv

/-- The consumers of an output form a finite list without cycles, linked in both directions. -/
structure DoublyLinked (d : Deps ι κ ν) (p : κ) (l : List ι) : Prop where
  linked : Linked d.nextConsumer (d.consumer p) l
  nodup : l.Nodup
  first : ∀ x, d.consumer p = some x → d.prevConsumer x = none
  prev : ∀ a ∈ l, ∀ b, d.nextConsumer a = some b → d.prevConsumer b = some a
  producer : ∀ x ∈ l, d.producer x = some p ∨ d.producer x = none

/-- All lists are doubly linked, no operation fails on them, and an operation keeps them so
exactly when it leaves no input behind a killed one. -/
structure Deps.WellLinked [DecidableEq ι] [DecidableEq κ] [DecidableEq ν] (d : Deps ι κ ν) :
    Prop where
  chains : ∀ p, ∃ l, DoublyLinked d p l
  checked : ∀ op : Op ι κ ν, op.Legal d → ∃ d', op.apply d = some d'
  keeps : ∀ (op : Op ι κ ν) (d' : Deps ι κ ν), op.Legal d → op.apply d = some d' →
    ((∀ p, ∃ l, DoublyLinked d' p l) ↔ op.KeepsPrev d)

namespace Inv
variable {d d' : Deps ι κ ν} {chain : κ → List ι} {x : ι}

theorem doublyLinked (h : Inv d chain) (hall : ∀ z, d.Current z) (p : κ) :
    DoublyLinked d p (chain p) where
  linked := h.linked p
  nodup := (h.linked p).nodup
  first x hx := (hall x).first p hx
  prev a _ b hb := (hall b).pred a hb
  producer x hx := .inl (h.owner p x hx)

variable [DecidableEq ι] [DecidableEq κ]

/-- The input behind a killed one keeps it as its previous consumer. -/
theorem not_doublyLinked (h : Inv d chain) (hall : ∀ z, d.Current z)
    (hkill : d.instKilled x = true) (hprod : d.producer x ≠ none)
    (hnext : d.nextConsumer x ≠ none) (hd : d.removeDependencyLinks x = some d') :
    ¬ ∀ p, ∃ l, DoublyLinked d' p l := by
  intro hlinked
  obtain ⟨q, hq⟩ := Option.ne_none_iff_exists'.mp hprod
  obtain ⟨z, hz⟩ := Option.ne_none_iff_exists'.mp hnext
  obtain rfl := Option.some.inj ((h.remove_eq_of_killed hq hkill).symm.trans hd)
  obtain ⟨p, hxp, hzp⟩ := h.exists_chain hz
  obtain ⟨l, hl⟩ := hlinked p
  have herase : l = (chain p).erase x := hl.linked.unique ((h.without_killed x).linked p)
  have hzx : z ≠ x := by
    rintro rfl
    exact (h.linked p).next_ne_self hzp hz
  have hstale : Function.update d.prevConsumer x none z = some x := by
    rw [Function.update_of_ne hzx]
    exact (hall z).pred x hz
  have hzl : z ∈ l := by
    rw [herase]
    exact (List.mem_erase_of_ne hzx).mpr hzp
  rcases hl.linked.pred hzl with hhead | ⟨a, ha, haz⟩
  · cases (hl.first z hhead).symm.trans hstale
  · have hax : a = x := Option.some.inj ((hl.prev a ha z haz).symm.trans hstale)
    rw [herase, hax] at ha
    exact (h.linked p).nodup.not_mem_erase ha

theorem wellLinked [DecidableEq ν] (h : Inv d chain) (hall : ∀ z, d.Current z) :
    d.WellLinked where
  chains p := ⟨chain p, h.doublyLinked hall p⟩
  checked op hlegal := by
    obtain ⟨d', hd', _⟩ := h.apply op hlegal fun x _ => hall x
    exact ⟨d', hd'⟩
  keeps op d' hlegal hd := by
    constructor
    · intro hlinked
      have hremove : ∀ x e, d.removeDependencyLinks x = some e →
          (∀ p, ∃ l, DoublyLinked e p l) → (Op.remove x : Op ι κ ν).KeepsPrev d := by
        intro x e he hlinked hkill hprod
        by_contra hnext
        exact h.not_doublyLinked hall hkill hprod hnext he hlinked
      cases op with
      | remove x => exact hremove x d' hd hlinked
      | cleanUp x =>
        obtain ⟨e, he, _, _⟩ := h.remove x
        have hclean : d.cleanUpLinks x = some d' := hd
        unfold Deps.cleanUpLinks at hclean
        rw [he] at hclean
        obtain ⟨hclean, _⟩ := Option.filter_eq_some_iff.mp hclean
        obtain rfl := Option.some.inj hclean
        refine hremove x e he fun p => ?_
        obtain ⟨l, hl⟩ := hlinked p
        exact ⟨l, hl.linked, hl.nodup, hl.first, hl.prev, hl.producer⟩
      | _ => trivial
    · intro hkeep p
      obtain ⟨e, he, hinv⟩ := h.apply op hlegal fun x _ => hall x
      obtain rfl := Option.some.inj (he.symm.trans hd)
      exact ⟨_, hinv.doublyLinked (h.current_apply hall hlegal hkeep hd) p⟩

end Inv

/-- The lists of consumers in every run in which no killed input is removed from in front of
another one. -/
theorem wellLinked_of_run [DecidableEq ι] [DecidableEq κ] [DecidableEq ν]
    (d₀ d : Deps ι κ ν) (ops : List (Op ι κ ν)) (hfresh : d₀.Fresh)
    (run : Lts.Run (Lts.guarded (fun d op => Op.KeepsPrev d op) DepStep) d₀ ops d) :
    d.WellLinked := by
  have hinv : (∃ chain, Inv d chain) ∧ ∀ z, d.Current z := by
    refine run.invariant (fun _ d => (∃ chain, Inv d chain) ∧ ∀ z, d.Current z)
      ⟨⟨_, Inv.fresh hfresh⟩, fun _ => Deps.current_fresh hfresh⟩ ?_
    rintro _ d op d' ⟨⟨chain, h⟩, hall⟩ ⟨hkeep, hlegal, hd⟩
    obtain ⟨e, he, hinv⟩ := h.apply op hlegal fun x _ => hall x
    obtain rfl := Option.some.inj (he.symm.trans hd)
    exact ⟨⟨_, hinv⟩, h.current_apply hall hlegal hkeep hd⟩
  obtain ⟨⟨chain, h⟩, hall⟩ := hinv
  exact h.wellLinked hall

/-- Two inputs and an output, as they were created, for instructions 0 and 1. -/
def created : Deps Nat Nat Nat where
  nextConsumer := fun _ => none
  prevConsumer := fun _ => none
  producer := fun _ => none
  cycleReadyForIssue := fun _ => uint64Max
  inst := some
  consumer := fun _ => none
  cycleValueProduced := fun _ => uint64Max
  cycleIssued := fun _ => uint64Max
  cycleDependentsCanIssue := fun _ => uint64Max
  prevProducer := fun _ => none
  nextProducer := fun _ => none
  instOut := some
  isKilled := fun _ => false
  built := []

theorem created_fresh : created.Fresh :=
  ⟨fun _ => rfl, fun _ => rfl, fun _ => rfl, fun _ => rfl, rfl⟩

/-- Inputs that leave the list from its middle, its end and its front. -/
def createdRun : List (Op Nat Nat Nat) :=
  [.build 0 (some 0) 5, .build 1 (some 0) 6, .build 2 (some 0) 7, .removeSingle 1, .kill 2,
    .remove 2, .cleanUp 0]

theorem wellLinked_of_run_created :
    ∃ d, Lts.Run (Lts.guarded (fun d op => Op.KeepsPrev d op) DepStep) created createdRun d ∧
      d.WellLinked := by
  have hrun : ∃ d, createdRun.foldlM (Deps.step fun d op => Op.KeepsPrev d op) created = some d :=
    Option.isSome_iff_exists.mp (by decide +kernel)
  obtain ⟨d, hd⟩ := hrun
  have run : Lts.Run (Lts.guarded (fun d op => Op.KeepsPrev d op) DepStep) created createdRun
      d := by
    apply Lts.Run.of_foldlM _ hd
    intro d op d' hstep
    obtain ⟨hkeep, hdep⟩ := depStep_of_step hstep
    exact ⟨of_decide_eq_true hkeep, hdep⟩
  exact ⟨d, run, wellLinked_of_run created d createdRun created_fresh run⟩

/-- The second of two inputs becomes the first when the first is killed, and still has it as
its previous consumer, which the next removal does not accept. -/
theorem stale_prev_fails :
    ∃ d, Lts.Run DepStep created [.build 0 (some 0) 5, .build 1 (some 0) 6, .kill 0, .remove 0] d ∧
      d.consumer 0 = some 1 ∧ d.prevConsumer 1 = some 0 ∧
      (Op.removeSingle 1 : Op Nat Nat Nat).apply d = none := by
  have hrun : ([.build 0 (some 0) 5, .build 1 (some 0) 6, .kill 0, .remove 0].foldlM
      (Deps.step fun _ _ => true) created).any (fun d => d.consumer 0 = some 1 && d.prevConsumer 1 = some 0 &&
        ((Op.removeSingle 1 : Op Nat Nat Nat).apply d).isNone) = true := by
    decide +kernel
  obtain ⟨d, hd, hlinks⟩ := (Option.any_eq_true _ _).mp hrun
  simp only [Bool.and_eq_true, decide_eq_true_eq, Option.isNone_iff_eq_none] at hlinks
  obtain ⟨⟨hfirst, hprev⟩, hfails⟩ := hlinks
  exact ⟨d, Lts.Run.of_foldlM (fun _ _ _ h => (depStep_of_step h).2) hd, hfirst, hprev, hfails⟩

end Awb.Dependency
