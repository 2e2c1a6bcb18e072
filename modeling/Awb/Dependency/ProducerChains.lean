import Awb.Dependency.Restore

/-! The chains of producers as an invariant that mappings, retirements and restorations keep. -/

namespace Awb.Dependency
open Chain
variable {ι κ ν : Type}

/-- The links between producers and their instructions are the same. -/
def SameProducers (d d' : Deps ι κ ν) : Prop :=
  d'.prevProducer = d.prevProducer ∧ d'.nextProducer = d.nextProducer ∧ d'.instOut = d.instOut

theorem SameProducers.refl (d : Deps ι κ ν) : SameProducers d d := ⟨rfl, rfl, rfl⟩

theorem SameProducers.trans {d e f : Deps ι κ ν} (h : SameProducers d e) (h' : SameProducers e f) :
    SameProducers d f := ⟨h'.1.trans h.1, h'.2.1.trans h.2.1, h'.2.2.trans h.2.2⟩

variable [DecidableEq κ]

namespace DepState

/-- The chains of producers are well formed. -/
structure WellFormed (s : DepState ι κ ν) : Prop where
  nodup : s.mapped.Nodup
  inverse : ∀ x y, s.deps.prevProducer x = some y ↔ s.deps.nextProducer y = some x
  older : ∀ x y, s.deps.prevProducer x = some y → x ∈ s.mapped ∧ y ∈ s.mapped ∧
    s.mapped.idxOf y < s.mapped.idxOf x ∧ s.physRegNum x = s.physRegNum y
  entry : ∀ k x, s.table.producers k = some x → k < s.table.numDependencies ∧
    s.deps.nextProducer x = none ∧ x ∈ s.mapped ∧ s.physRegNum x = some k
  numbered : ∀ x k, s.physRegNum x = some k → k < s.table.numDependencies
  cleaned : ∀ x, s.deps.instOut x = none → s.deps.prevProducer x = none ∧
    s.deps.nextProducer x = none ∧ ∀ k, s.table.producers k ≠ some x

/-- The table and its objects as they are created. -/
structure Fresh (s : DepState ι κ ν) : Prop where
  deps : s.deps.Fresh
  prevProducer : ∀ x, s.deps.prevProducer x = none
  nextProducer : ∀ x, s.deps.nextProducer x = none
  producers : ∀ k, s.table.producers k = none
  physRegNum : ∀ x, s.physRegNum x = none
  mapped : s.mapped = []

/-- A producer is out of its chain and its entry; its neighbours are linked to one another. -/
structure Retired (s s' : DepState ι κ ν) (x : κ) : Prop where
  prevProducer : ∀ a, s'.deps.prevProducer a = if a = x then none
    else if s.deps.nextProducer x = some a then s.deps.prevProducer x else s.deps.prevProducer a
  nextProducer : ∀ a, s'.deps.nextProducer a = if a = x then none
    else if s.deps.prevProducer x = some a then s.deps.nextProducer x else s.deps.nextProducer a
  instOut : ∀ a, s'.deps.instOut a = if a = x then none else s.deps.instOut a
  producers : ∀ k, s'.table.producers k
    = if s.table.producers k = some x then none else s.table.producers k
  others : s'.table.numDependencies = s.table.numDependencies ∧ s'.physRegNum = s.physRegNum ∧
    s'.mapped = s.mapped

namespace WellFormed
variable {s s' : DepState ι κ ν} {x y : κ} {k : ℕ}

theorem fresh (h : s.Fresh) : s.WellFormed where
  nodup := by simp [h.mapped]
  inverse := by simp [h.prevProducer, h.nextProducer]
  older := by simp [h.prevProducer]
  entry := by simp [h.producers]
  numbered := by simp [h.physRegNum]
  cleaned := by simp [h.prevProducer, h.nextProducer, h.producers]

/-- Nothing points to a producer that was not mapped. -/
theorem unmapped (h : s.WellFormed) (hx : x ∉ s.mapped) : s.deps.prevProducer x = none ∧
    s.deps.nextProducer x = none ∧ ∀ k, s.table.producers k ≠ some x := by
  refine ⟨?_, ?_, fun k hk => hx (h.entry k x hk).2.2.1⟩
  · cases hp : s.deps.prevProducer x with
    | none => rfl
    | some y => exact absurd (h.older x y hp).1 hx
  · cases hn : s.deps.nextProducer x with
    | none => rfl
    | some y => exact absurd (h.older y x ((h.inverse y x).mpr hn)).2.1 hx

/-- A chain of an entry holds mapped producers of its register. -/
theorem mem_chain (h : s.WellFormed) {l : List κ}
    (hl : Linked s.deps.prevProducer (s.table.producers k) l) (hx : x ∈ l) :
    x ∈ s.mapped ∧ s.physRegNum x = some k := by
  have hall : ∀ (l : List κ) (e : Option κ), Linked s.deps.prevProducer e l →
      (∀ a, e = some a → a ∈ s.mapped ∧ s.physRegNum a = some k) →
      ∀ a ∈ l, a ∈ s.mapped ∧ s.physRegNum a = some k := by
    intro l
    induction l with
    | nil => intro _ _ _ a ha; cases ha
    | cons b l ih =>
      intro e hl he a ha
      have hb := he b hl.1
      rcases List.mem_cons.mp ha with rfl | ha
      · exact hb
      · refine ih _ hl.2 ?_ a ha
        intro c hc
        obtain ⟨-, hmem, -, hphys⟩ := h.older b c hc
        exact ⟨hmem, hphys ▸ hb.2⟩
  exact hall l _ hl (fun a ha => (h.entry k a ha).2.2) x hx

/-- The entries have chains, from the producer mapped last to the one mapped first. -/
theorem exists_chains (h : s.WellFormed) : ∃ chains, s.EntryChains chains ∧
    (∀ k, (chains k).length ≤ s.mapped.length) ∧
    ∀ k, (chains k).Pairwise fun x y => s.mapped.idxOf y < s.mapped.idxOf x := by
  have hexists : ∀ k, ∃ l, Linked s.deps.prevProducer (s.table.producers k) l := fun k =>
    exists_linked (fun x => s.mapped.idxOf x) (fun a b hab => (h.older a b hab).2.2.1) _
  choose chains hchains using hexists
  refine ⟨chains, ⟨fun k _ => hchains k, fun k _ => ?_, ?_⟩, fun k => ?_, fun k => ?_⟩
  · exact (hchains k).backed (fun a b hab => (h.inverse a b).mp hab)
      fun a ha => (h.entry k a ha).2.1
  · intro j _ k _ hjk x hxj hxk
    have hj := (h.mem_chain (hchains j) hxj).2
    have hk := (h.mem_chain (hchains k) hxk).2
    exact hjk (Option.some.inj (hj.symm.trans hk))
  · exact ((hchains k).nodup.subperm fun x hx => (h.mem_chain (hchains k) hx).1).length_le
  · exact (hchains k).pairwise (fun x y hxy => (h.older x y hxy).2.2.1)
      fun x y z hxy hyz => hyz.trans hxy

/-- A new producer becomes the entry of its register. -/
theorem mapRegister (h : s.WellFormed) {virtualNum rrb : ℕ} (hx : x ∉ s.mapped)
    (hinst : (s.deps.instOut x).isSome) (hs : s.mapRegister x virtualNum rrb = some s') :
    s'.WellFormed := by
  obtain ⟨num, hnum, rfl⟩ := Option.map_eq_some_iff.mp hs
  have hlt : num < s.table.numDependencies := s.table.getRotatedRegNum_lt hnum
  obtain ⟨hprev, hnext, hentry⟩ := h.unmapped hx
  have hprev' : ∀ a, (s.deps.buildOutputDependencyGraph x (s.table.producers num)).prevProducer a
      = if a = x then s.table.producers num else s.deps.prevProducer a := fun a =>
    Function.update_apply ..
  have hnext' : ∀ a, (s.deps.buildOutputDependencyGraph x (s.table.producers num)).nextProducer a
      = if s.table.producers num = some a then some x else s.deps.nextProducer a := by
    intro a
    cases hp : s.table.producers num with
    | none => simp [Deps.buildOutputDependencyGraph]
    | some p => simp [Deps.buildOutputDependencyGraph, Function.update_apply, eq_comm]
  have hphys : ∀ a ∈ s.mapped, Function.update s.physRegNum x (some num) a = s.physRegNum a := by
    intro a ha
    have hne : a ≠ x := by
      rintro rfl
      exact hx ha
    exact Function.update_of_ne hne _ _
  have hidx : ∀ a ∈ s.mapped, (s.mapped ++ [x]).idxOf a = s.mapped.idxOf a := fun a ha =>
    List.idxOf_append_of_mem ha
  have hmem : ∀ a ∈ s.mapped, a ∈ s.mapped ++ [x] := fun a ha => List.mem_append_left [x] ha
  constructor
  · exact List.nodup_append.mpr ⟨h.nodup, List.nodup_singleton x, fun a ha b hb => by
      rintro rfl
      exact hx (List.mem_singleton.mp hb ▸ ha)⟩
  · intro a b
    change (s.deps.buildOutputDependencyGraph x (s.table.producers num)).prevProducer a = _ ↔
      (s.deps.buildOutputDependencyGraph x (s.table.producers num)).nextProducer b = _
    rw [hprev', hnext']
    by_cases hb : s.table.producers num = some b
    · have hend := (h.entry num b hb).2.1
      have hlast : s.deps.prevProducer a ≠ some b := by
        intro hab
        cases ((h.inverse a b).mp hab).symm.trans hend
      by_cases hax : a = x
      · simp [hax, hb]
      · rw [if_neg hax, if_pos hb]
        simp [hlast, Ne.symm hax]
    · rw [if_neg hb]
      by_cases hax : a = x
      · subst hax
        have hnone : s.deps.nextProducer b ≠ some a := by
          intro hba
          cases ((h.inverse a b).mpr hba).symm.trans hprev
        simp [hb, hnone]
      · rw [if_neg hax]
        exact h.inverse a b
  · intro a b hab
    change (s.deps.buildOutputDependencyGraph x (s.table.producers num)).prevProducer a = _ at hab
    rw [hprev'] at hab
    by_cases hax : a = x
    · subst hax
      rw [if_pos rfl] at hab
      obtain ⟨-, -, hb, hnumb⟩ := h.entry num b hab
      refine ⟨List.mem_append_right _ List.mem_cons_self, hmem b hb, ?_, ?_⟩
      · have hlen := List.idxOf_lt_length_of_mem hb
        rw [hidx b hb, List.idxOf_append_of_notMem hx]
        omega
      · change Function.update s.physRegNum a (some num) a
          = Function.update s.physRegNum a (some num) b
        rw [Function.update_self, hphys b hb, hnumb]
    · rw [if_neg hax] at hab
      obtain ⟨ha, hb, hlt, hsame⟩ := h.older a b hab
      refine ⟨hmem a ha, hmem b hb, ?_, ?_⟩
      · rw [hidx a ha, hidx b hb]
        exact hlt
      · exact (hphys a ha).trans (hsame.trans (hphys b hb).symm)
  · intro k a hk
    change Function.update s.table.producers num (some x) k = some a at hk
    change k < s.table.numDependencies ∧
      (s.deps.buildOutputDependencyGraph x (s.table.producers num)).nextProducer a = none ∧
      a ∈ s.mapped ++ [x] ∧ Function.update s.physRegNum x (some num) a = some k
    rw [hnext']
    by_cases hknum : k = num
    · subst hknum
      rw [Function.update_self] at hk
      obtain rfl := Option.some.inj hk
      rw [if_neg (hentry k), Function.update_self]
      exact ⟨hlt, hnext, List.mem_append_right _ List.mem_cons_self, rfl⟩
    · rw [Function.update_of_ne hknum] at hk
      obtain ⟨hkn, hend, ha, hnuma⟩ := h.entry k a hk
      have hother : s.table.producers num ≠ some a := by
        intro hother
        have hnuma' := (h.entry num a hother).2.2.2
        exact hknum (Option.some.inj (hnuma.symm.trans hnuma'))
      rw [if_neg hother, hphys a ha]
      exact ⟨hkn, hend, hmem a ha, hnuma⟩
  · intro a k hk
    change Function.update s.physRegNum x (some num) a = some k at hk
    by_cases hax : a = x
    · subst hax
      rw [Function.update_self] at hk
      exact Option.some.inj hk ▸ hlt
    · rw [Function.update_of_ne hax] at hk
      exact h.numbered a k hk
  · intro a ha
    change s.deps.instOut a = none at ha
    obtain ⟨hprevA, hnextA, hentryA⟩ := h.cleaned a ha
    have hax : a ≠ x := by
      rintro rfl
      simp [ha] at hinst
    change (s.deps.buildOutputDependencyGraph x (s.table.producers num)).prevProducer a = none ∧
      (s.deps.buildOutputDependencyGraph x (s.table.producers num)).nextProducer a = none ∧
      ∀ k, Function.update s.table.producers num (some x) k ≠ some a
    rw [hprev', hnext', if_neg hax, if_neg (hentryA num)]
    refine ⟨hprevA, hnextA, fun k => ?_⟩
    by_cases hknum : k = num
    · subst hknum
      rw [Function.update_self]
      exact fun hxa => hax (Option.some.inj hxa).symm
    · rw [Function.update_of_ne hknum]
      exact hentryA k

/-- A producer leaves its chain. -/
theorem retire (h : s.WellFormed) (hr : Retired s s' x) : s'.WellFormed := by
  have hloop : s.deps.prevProducer x ≠ some x := fun hx => (h.older x x hx).2.2.1.false
  have hnext : ∀ a, s.deps.nextProducer x = some a → s.deps.prevProducer a = some x := fun a =>
    (h.inverse a x).mpr
  have hprev : ∀ b, s.deps.prevProducer x = some b → s.deps.nextProducer b = some x := fun b =>
    (h.inverse x b).mp
  obtain ⟨hnum, hphys, hmapped⟩ := hr.others
  constructor
  · exact hmapped ▸ h.nodup
  · intro a b
    rw [hr.prevProducer, hr.nextProducer]
    by_cases hax : a = x
    · subst hax
      have hba : ∀ c, s.deps.nextProducer a = c → c ≠ some a := by
        rintro c rfl hself
        exact hloop (hnext a hself)
      by_cases hb : s.deps.prevProducer a = some b
      · simp [hb, hba]
      · have hnb : s.deps.nextProducer b ≠ some a := fun hnb => hb ((h.inverse a b).mpr hnb)
        simp [hb, hnb]
    · rw [if_neg hax]
      by_cases hxa : s.deps.nextProducer x = some a
      · rw [if_pos hxa]
        by_cases hbx : b = x
        · subst hbx
          simp [hloop]
        · rw [if_neg hbx]
          by_cases hb : s.deps.prevProducer x = some b
          · simp [hb, hxa]
          · have hba : s.deps.nextProducer b ≠ some a := by
              intro hba
              have hab := (h.inverse a b).mpr hba
              exact hbx (Option.some.inj (hab.symm.trans (hnext a hxa)))
            simp [hb, hba]
      · rw [if_neg hxa]
        by_cases hbx : b = x
        · subst hbx
          have hab : s.deps.prevProducer a ≠ some b := fun hab => hxa ((h.inverse a b).mp hab)
          simp [hab]
        · rw [if_neg hbx]
          by_cases hb : s.deps.prevProducer x = some b
          · have hab : s.deps.prevProducer a ≠ some b := by
              intro hab
              have hba := (h.inverse a b).mp hab
              exact hax (Option.some.inj (hba.symm.trans (hprev b hb)))
            simp [hb, hab, hxa]
          · rw [if_neg hb]
            exact h.inverse a b
  · intro a b hab
    rw [hr.prevProducer] at hab
    rw [hmapped, hphys]
    by_cases hax : a = x
    · simp [hax] at hab
    · rw [if_neg hax] at hab
      by_cases hxa : s.deps.nextProducer x = some a
      · rw [if_pos hxa] at hab
        obtain ⟨ha, -, hlt, hsame⟩ := h.older a x (hnext a hxa)
        obtain ⟨-, hb, hlt', hsame'⟩ := h.older x b hab
        exact ⟨ha, hb, hlt'.trans hlt, hsame.trans hsame'⟩
      · rw [if_neg hxa] at hab
        exact h.older a b hab
  · intro k a hk
    rw [hr.producers] at hk
    rw [hnum, hmapped, hphys, hr.nextProducer]
    by_cases hkx : s.table.producers k = some x
    · simp [hkx] at hk
    · rw [if_neg hkx] at hk
      obtain ⟨hkn, hend, ha, hnuma⟩ := h.entry k a hk
      have hax : a ≠ x := by
        rintro rfl
        exact hkx hk
      have hxa : s.deps.prevProducer x ≠ some a := by
        intro hxa
        cases (hprev a hxa).symm.trans hend
      rw [if_neg hax, if_neg hxa]
      exact ⟨hkn, hend, ha, hnuma⟩
  · rw [hnum, hphys]
    exact h.numbered
  · intro a ha
    rw [hr.instOut] at ha
    rw [hr.prevProducer, hr.nextProducer]
    by_cases hax : a = x
    · subst hax
      refine ⟨if_pos rfl, if_pos rfl, fun k => ?_⟩
      rw [hr.producers]
      by_cases hk : s.table.producers k = some a <;> simp [hk]
    · rw [if_neg hax] at ha
      obtain ⟨hprevA, hnextA, hentryA⟩ := h.cleaned a ha
      have hxa : s.deps.nextProducer x ≠ some a := by
        intro hxa
        cases (hnext a hxa).symm.trans hprevA
      have hax' : s.deps.prevProducer x ≠ some a := by
        intro hxa
        cases (hprev a hxa).symm.trans hnextA
      rw [if_neg hax, if_neg hax, if_neg hxa, if_neg hax']
      refine ⟨hprevA, hnextA, fun k => ?_⟩
      rw [hr.producers]
      by_cases hk : s.table.producers k = some x
      · simp [hk]
      · rw [if_neg hk]
        exact hentryA k

/-- The killed front parts of the chains leave them. -/
theorem restore {chains : ℕ → List κ} (h : s.WellFormed) (hchains : s.EntryChains chains)
    (hr : Restored s s' chains (List.range s.table.numDependencies)) : s'.WellFormed := by
  obtain ⟨hnum, hphys, hmapped⟩ := hr.others
  have hskipped : ∀ x, (∃ k ∈ List.range s.table.numDependencies, x ∈ s.skipped k (chains k)) ∨
      ∀ k ∈ List.range s.table.numDependencies, x ∉ s.skipped k (chains k) := by
    intro x
    by_cases hx : ∃ k ∈ List.range s.table.numDependencies, x ∈ s.skipped k (chains k)
    · exact .inl hx
    · push Not at hx
      exact .inr hx
  have hparts : ∀ k ∈ List.range s.table.numDependencies,
      Linked s.deps.prevProducer (s.table.producers k)
        (s.skipped k (chains k) ++ s.remaining k (chains k)) ∧
      Backed s.deps.nextProducer none (s.skipped k (chains k) ++ s.remaining k (chains k)) := by
    intro k hk
    rw [s.skipped_append_remaining k (chains k)]
    exact ⟨hchains.linked k (List.mem_range.mp hk), hchains.backed k (List.mem_range.mp hk)⟩
  -- what follows a skipped producer or an end is skipped with it
  have hnewer : ∀ k ∈ List.range s.table.numDependencies, ∀ x y, s.deps.prevProducer x = some y →
      y ∈ s.skipped k (chains k) ∨ (s.remaining k (chains k)).head? = some y →
      x ∈ s.skipped k (chains k) := by
    intro k hk x y hxy hy
    have hyx := (h.inverse x y).mp hxy
    rcases (hparts k hk).2.front hy with hnone | ⟨c, hc, hyc⟩
    · cases hyx.symm.trans hnone
    · obtain rfl := Option.some.inj (hyx.symm.trans hyc)
      exact hc
  have hprev : ∀ x y, s'.deps.prevProducer x = some y → s.deps.prevProducer x = some y ∧
      ∀ k ∈ List.range s.table.numDependencies, x ∉ s.skipped k (chains k) := by
    intro x y hxy
    rcases hskipped x with ⟨k, hk, hx⟩ | hx
    · cases hxy.symm.trans (hr.cleared k hk x hx).2.2.1
    · rw [(hr.kept x hx).2.2] at hxy
      exact ⟨hxy, hx⟩
  have hnext : ∀ y x, s'.deps.nextProducer y = some x → s.deps.nextProducer y = some x ∧
      ∀ k ∈ List.range s.table.numDependencies, y ∉ s.skipped k (chains k) ∧
        (s.remaining k (chains k)).head? ≠ some y := by
    intro y x hyx
    have hy : ∀ k ∈ List.range s.table.numDependencies, y ∉ s.skipped k (chains k) ∧
        (s.remaining k (chains k)).head? ≠ some y := by
      intro k hk
      refine ⟨fun hy => ?_, fun hy => ?_⟩
      · cases hyx.symm.trans (hr.cleared k hk y hy).2.2.2
      · cases hyx.symm.trans (hr.ends k hk y hy)
    rw [hr.keptNext y hy] at hyx
    exact ⟨hyx, hy⟩
  constructor
  · exact hmapped ▸ h.nodup
  · intro x y
    constructor
    · intro hxy
      obtain ⟨hxy, hx⟩ := hprev x y hxy
      rw [hr.keptNext y fun k hk => ⟨fun hy => hx k hk (hnewer k hk x y hxy (.inl hy)),
        fun hy => hx k hk (hnewer k hk x y hxy (.inr hy))⟩]
      exact (h.inverse x y).mp hxy
    · intro hyx
      obtain ⟨hyx, hy⟩ := hnext y x hyx
      have hxy := (h.inverse x y).mpr hyx
      rw [(hr.kept x fun k hk hx => ?_).2.2]
      · exact hxy
      · rcases (hparts k hk).1.front hx hxy with hfront | hfirst
        · exact (hy k hk).1 hfront
        · exact (hy k hk).2 hfirst
  · intro x y hxy
    rw [hmapped, hphys]
    exact h.older x y (hprev x y hxy).1
  · intro k x hk
    rw [hr.producers] at hk
    rw [hnum, hphys, hmapped]
    by_cases hkn : k ∈ List.range s.table.numDependencies
    · rw [if_pos hkn] at hk
      have hlt := List.mem_range.mp hkn
      exact ⟨hlt, hr.ends k hkn x hk,
        h.mem_chain (hchains.linked k hlt) (mem_of_remaining_head hk)⟩
    · rw [if_neg hkn] at hk
      exact absurd (List.mem_range.mpr (h.entry k x hk).1) hkn
  · rw [hnum, hphys]
    exact h.numbered
  · intro x hx
    have hhead : ∀ k ∈ List.range s.table.numDependencies, x ∉ s.skipped k (chains k) →
        s.deps.instOut x = none → (s.remaining k (chains k)).head? ≠ some x := by
      intro k hk _ hinst hrest
      obtain ⟨-, hend, hentry⟩ := h.cleaned x hinst
      have hlt := List.mem_range.mp hk
      have hfirst := (hchains.backed k hlt).head_of_none (mem_of_remaining_head hrest) hend
      exact hentry k ((hchains.linked k hlt).head.trans hfirst)
    rcases hskipped x with ⟨k, hk, hskip⟩ | hkept
    · obtain ⟨-, -, hprevX, hnextX⟩ := hr.cleared k hk x hskip
      refine ⟨hprevX, hnextX, fun j hj => ?_⟩
      rw [hr.producers] at hj
      by_cases hjn : j ∈ List.range s.table.numDependencies
      · rw [if_pos hjn] at hj
        by_cases hjk : j = k
        · subst hjk
          have hnodup := (hparts j hk).1.nodup
          exact (List.nodup_append.mp hnodup).2.2 x hskip x (List.mem_of_mem_head? hj) rfl
        · exact hchains.disjoint j (List.mem_range.mp hjn) k (List.mem_range.mp hk) hjk
            (mem_of_remaining_head hj) (mem_of_skipped hskip)
      · rw [if_neg hjn] at hj
        exact hjn (List.mem_range.mpr (h.entry j x hj).1)
    · rw [(hr.kept x hkept).1] at hx
      obtain ⟨hprevX, hnextX, hentryX⟩ := h.cleaned x hx
      have hends : ∀ k ∈ List.range s.table.numDependencies, x ∉ s.skipped k (chains k) ∧
          (s.remaining k (chains k)).head? ≠ some x := fun k hk =>
        ⟨hkept k hk, hhead k hk (hkept k hk) hx⟩
      rw [(hr.kept x hkept).2.2, hr.keptNext x hends]
      refine ⟨hprevX, hnextX, fun j hj => ?_⟩
      rw [hr.producers] at hj
      by_cases hjn : j ∈ List.range s.table.numDependencies
      · rw [if_pos hjn] at hj
        exact (hends j hjn).2 hj
      · rw [if_neg hjn] at hj
        exact hentryX j hj

/-- The links between producers and the table are all that counts. -/
theorem congr {deps : Deps ι κ ν} (h : s.WellFormed) (hsame : SameProducers s.deps deps) :
    ({ s with deps } : DepState ι κ ν).WellFormed := by
  obtain ⟨hprev, hnext, hinst⟩ := hsame
  exact
    { nodup := h.nodup
      inverse := by simpa only [hprev, hnext] using h.inverse
      older := by simpa only [hprev] using h.older
      entry := by simpa only [hnext] using h.entry
      numbered := h.numbered
      cleaned := by simpa only [hprev, hnext, hinst] using h.cleaned }

end WellFormed

variable {s : DepState ι κ ν}

/-- `RemoveOutputDependency` looks at the table only. -/
theorem removeOutputDependency_eq (h : s.WellFormed) (x : κ) :
    ∃ table, (∀ deps, ({ s with deps } : DepState ι κ ν).removeOutputDependency x
        = some { s with deps, table }) ∧
      table.numDependencies = s.table.numDependencies ∧
      ∀ k, table.producers k = if s.table.producers k = some x then none
        else s.table.producers k := by
  cases hphys : s.physRegNum x with
  | none =>
    refine ⟨s.table, fun deps => by simp [removeOutputDependency, hphys], rfl, fun k => ?_⟩
    have hk : s.table.producers k ≠ some x := by
      intro hk
      cases hphys.symm.trans (h.entry k x hk).2.2.2
    rw [if_neg hk]
  | some num =>
    have hnum := h.numbered x num hphys
    have hother : ∀ k, s.table.producers k = some x → k = num := fun k hk =>
      Option.some.inj ((h.entry k x hk).2.2.2.symm.trans hphys)
    by_cases hentry : s.table.producers num = some x
    · refine ⟨s.table.setEntry num none,
        fun deps => by simp [removeOutputDependency, hphys, hnum, hentry], rfl, fun k => ?_⟩
      change Function.update s.table.producers num none k = _
      by_cases hk : k = num
      · subst hk
        rw [Function.update_self, if_pos hentry]
      · rw [Function.update_of_ne hk, if_neg fun hx => hk (hother k hx)]
    · refine ⟨s.table, fun deps => by simp [removeOutputDependency, hphys, hnum, hentry], rfl,
        fun k => ?_⟩
      have hk : s.table.producers k ≠ some x := by
        intro hk
        exact hentry (hother k hk ▸ hk)
      rw [if_neg hk]

variable [DecidableEq ι]

/-- `CleanUpLinks` on well-formed lists of consumers. -/
theorem cleanUpLinks_eq {consumers : κ → List ι} (hinv : Inv s.deps consumers) (x : κ) :
    ∃ deps consumers', Inv deps consumers' ∧
      (∀ table, ({ s with table } : DepState ι κ ν).cleanUpLinks x = some { s with deps, table }) ∧
      (∀ a, deps.prevProducer a = if a = x then none else if s.deps.nextProducer x = some a
        then s.deps.prevProducer x else s.deps.prevProducer a) ∧
      (∀ a, deps.nextProducer a = if a = x then none else if s.deps.prevProducer x = some a
        then s.deps.nextProducer x else s.deps.nextProducer a) ∧
      ∀ a, deps.instOut a = if a = x then none else s.deps.instOut a := by
  obtain ⟨deps, hdeps⟩ : ∃ deps, s.deps.cleanUpOutputLinks x = some deps :=
    ⟨_, congrArg (Option.map _) (hinv.removeOutput x)⟩
  have hclean := hdeps
  rw [Deps.cleanUpOutputLinks, hinv.removeOutput x] at hclean
  obtain rfl := Option.some.inj hclean
  refine ⟨_, Function.update consumers x [], ?_, fun table => congrArg (Option.map _) hdeps,
    ?_, ?_, ?_⟩
  · exact (hinv.cutOff x).kept rfl rfl (fun _ _ _ => rfl) (fun _ _ hy => hy) (List.Subset.refl _)
  · intro a
    cases hnext : s.deps.nextProducer x with
    | none => simp [Function.update_apply, Deps.cutOff]
    | some n => simp [Function.update_apply, Deps.cutOff, eq_comm]
  · intro a
    cases hprev : s.deps.prevProducer x with
    | none => simp [Function.update_apply, Deps.cutOff]
    | some p => simp [Function.update_apply, Deps.cutOff, eq_comm]
  · intro a
    simp [Function.update_apply, Deps.cutOff]

/-- Both orders of a retirement do the same. -/
theorem retire_eq {consumers : κ → List ι} (hinv : Inv s.deps consumers) (h : s.WellFormed)
    (x : κ) (linksFirst : Bool) :
    ∃ s' consumers', s.retire x linksFirst = some s' ∧ Inv s'.deps consumers' ∧ Retired s s' x := by
  obtain ⟨deps, consumers', hinv', hdeps, hprev, hnext, hinst⟩ := cleanUpLinks_eq hinv x
  obtain ⟨table, htable, hnum, hproducers⟩ := removeOutputDependency_eq h x
  refine ⟨{ s with deps, table }, consumers', ?_, hinv', hprev, hnext, hinst, hproducers, hnum,
    rfl, rfl⟩
  cases linksFirst with
  | true =>
    have hfirst : s.cleanUpLinks x = some { s with deps } := hdeps s.table
    rw [retire, if_pos rfl, hfirst]
    exact htable deps
  | false =>
    have hfirst : s.removeOutputDependency x = some { s with table } := htable s.deps
    rw [retire, if_neg Bool.false_ne_true, hfirst]
    exact hdeps table

end DepState

end Awb.Dependency
