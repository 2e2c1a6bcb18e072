import Mathlib.Data.List.TakeWhile
import Awb.Dependency.Registers
import Awb.Dependency.DoublyLinked

/-! What `RestoreDependencyState` leaves of the chains of producers: the killed front part of each
one is taken off and dismantled. -/

namespace Awb.Dependency
open Chain
variable {ι κ ν : Type}

/-- Tests that agree on a list cut off the same front part. -/
theorem takeWhile_congr_of_mem {α : Type*} {p q : α → Bool} {l : List α} (h : ∀ x ∈ l, p x = q x) :
    l.takeWhile p = l.takeWhile q ∧ l.dropWhile p = l.dropWhile q := by
  induction l with
  | nil => exact ⟨rfl, rfl⟩
  | cons a l ih =>
    have ⟨htake, hdrop⟩ := ih fun x hx => h x (List.mem_cons_of_mem a hx)
    simp only [List.takeWhile_cons, List.dropWhile_cons, h a List.mem_cons_self, htake, hdrop,
      and_self]

/-- A stop condition looks at nothing but the instruction of a producer. -/
def ByInst (stop : Deps ι κ ν → κ → Bool) : Prop :=
  ∀ (d d' : Deps ι κ ν) x, d'.instOut x = d.instOut x → d'.isKilled = d.isKilled →
    stop d' x = stop d x

theorem byInst_liveOut : ByInst (Deps.liveOut : Deps ι κ ν → κ → Bool) := by
  intro d d' x hinst hkilled
  rw [Deps.liveOut, Deps.liveOut, hinst, hkilled]

namespace DepState
variable (s : DepState ι κ ν)

/-- The entry of a register belongs to a killed instruction. -/
def headKilled (k : ℕ) : Bool := (s.table.producers k).any s.deps.killedOut

/-- The part of a register's chain that is restored away, and the part that remains. -/
def skipped (k : ℕ) (l : List κ) : List κ :=
  if s.headKilled k then l.takeWhile (!s.deps.liveOut ·) else []

def remaining (k : ℕ) (l : List κ) : List κ :=
  if s.headKilled k then l.dropWhile (!s.deps.liveOut ·) else l

/-- The chains of the registers: doubly linked from the entries, and disjoint. -/
structure EntryChains (chains : ℕ → List κ) : Prop where
  linked : ∀ k < s.table.numDependencies,
    Linked s.deps.prevProducer (s.table.producers k) (chains k)
  backed : ∀ k < s.table.numDependencies, Backed s.deps.nextProducer none (chains k)
  disjoint : ∀ j < s.table.numDependencies, ∀ k < s.table.numDependencies, j ≠ k →
    (chains j).Disjoint (chains k)

variable {s}

theorem skipped_append_remaining (s : DepState ι κ ν) (k : ℕ) (l : List κ) :
    s.skipped k l ++ s.remaining k l = l := by
  rw [skipped, remaining]
  split
  · exact List.takeWhile_append_dropWhile
  · rfl

variable {k : ℕ} {x : κ}

theorem mem_of_skipped {l : List κ} (hx : x ∈ s.skipped k l) : x ∈ l := by
  rw [← s.skipped_append_remaining k l]
  exact List.mem_append_left _ hx

theorem mem_of_remaining {l : List κ} (hx : x ∈ s.remaining k l) : x ∈ l := by
  rw [← s.skipped_append_remaining k l]
  exact List.mem_append_right _ hx

theorem mem_of_remaining_head {l : List κ} (hx : (s.remaining k l).head? = some x) : x ∈ l :=
  mem_of_remaining (List.mem_of_mem_head? hx)

end DepState

variable [DecidableEq κ]

/-- The producers of a front part have no links, no consumers and no instruction any more, and the
one behind them is the end of its chain. -/
structure Dismantled (d d' : Deps ι κ ν) (front : List κ) (last : Option κ) : Prop where
  prevProducer : ∀ x, d'.prevProducer x = if x ∈ front then none else d.prevProducer x
  nextProducer : ∀ x, d'.nextProducer x = if x ∈ front ∨ last = some x then none
    else d.nextProducer x
  instOut : ∀ x, d'.instOut x = if x ∈ front then none else d.instOut x
  consumer : ∀ x, d'.consumer x = if x ∈ front then none else d.consumer x
  isKilled : d'.isKilled = d.isKilled

/-- The lists of consumers without those of a front part. -/
def withoutConsumers (consumers : κ → List ι) (front : List κ) : κ → List ι :=
  fun p => if p ∈ front then [] else consumers p

namespace DepState
variable {s s' : DepState ι κ ν} {chains : ℕ → List κ} {k : ℕ}

/-- The chains after one of them lost a front part. -/
theorem EntryChains.dismantled {front rest : List κ} (h : s.EntryChains chains)
    (hk : k < s.table.numDependencies) (hparts : front ++ rest = chains k)
    (hdis : Dismantled s.deps s'.deps front rest.head?)
    (htable : s'.table = s.table.setEntry k rest.head?) :
    s'.EntryChains (Function.update chains k rest) := by
  have hnodup : (front ++ rest).Nodup := by
    rw [hparts]
    exact (h.linked k hk).nodup
  have hout : ∀ j < s.table.numDependencies, j ≠ k → ∀ x ∈ chains j,
      x ∉ front ∧ rest.head? ≠ some x := by
    intro j hj hjk x hx
    have hdisjoint := h.disjoint j hj k hk hjk hx
    exact ⟨fun hskip => hdisjoint (hparts ▸ List.mem_append_left rest hskip),
      fun hrest => hdisjoint (hparts ▸ List.mem_append_right front (List.mem_of_mem_head? hrest))⟩
  have hnum : s'.table.numDependencies = s.table.numDependencies := by rw [htable]; rfl
  have hproducers : s'.table.producers
      = Function.update s.table.producers k rest.head? := by rw [htable]; rfl
  refine ⟨?_, ?_, ?_⟩
  · intro j hj
    rw [hnum] at hj
    rw [hproducers]
    by_cases hjk : j = k
    · subst hjk
      rw [Function.update_self, Function.update_self]
      have hl := h.linked j hk
      rw [← hparts] at hl
      refine (Linked.rest hl).congr fun x hx => ?_
      have hx' : x ∉ front :=
        fun hskip => (List.nodup_append.mp hnodup).2.2 x hskip x hx rfl
      rw [hdis.prevProducer, if_neg hx']
    · rw [Function.update_of_ne hjk, Function.update_of_ne hjk]
      refine (h.linked j hj).congr fun x hx => ?_
      rw [hdis.prevProducer, if_neg (hout j hj hjk x hx).1]
  · intro j hj
    rw [hnum] at hj
    by_cases hjk : j = k
    · subst hjk
      rw [Function.update_self]
      have hb := h.backed j hk
      rw [← hparts] at hb
      refine hb.behind ?_ ?_
      · intro x hx
        rw [hdis.nextProducer, if_pos (Or.inr hx)]
      · intro x hx
        have hskip : x ∉ front := fun hskip =>
          (List.nodup_append.mp hnodup).2.2 x hskip x (List.mem_of_mem_tail hx) rfl
        have hrest : rest.head? ≠ some x := by
          have hrestNodup := (List.nodup_append.mp hnodup).2.1
          cases hc : rest with
          | nil => simp
          | cons a l =>
            rw [hc] at hx hrestNodup
            intro ha
            obtain rfl := Option.some.inj ha
            exact (List.nodup_cons.mp hrestNodup).1 hx
        rw [hdis.nextProducer, if_neg (not_or.mpr ⟨hskip, hrest⟩)]
    · rw [Function.update_of_ne hjk]
      refine (h.backed j hj).congr fun x hx => ?_
      rw [hdis.nextProducer, if_neg (not_or.mpr (hout j hj hjk x hx))]
  · intro i hi j hj hij x hxi hxj
    rw [hnum] at hi hj
    refine h.disjoint i hi j hj hij ?_ ?_ (a := x)
    · by_cases hik : i = k
      · subst hik
        rw [Function.update_self] at hxi
        exact hparts ▸ List.mem_append_right front hxi
      · rwa [Function.update_of_ne hik] at hxi
    · by_cases hjk : j = k
      · subst hjk
        rw [Function.update_self] at hxj
        exact hparts ▸ List.mem_append_right front hxj
      · rwa [Function.update_of_ne hjk] at hxj

/-- A register that comes later is cut in the same place. -/
theorem EntryChains.later (h : s.EntryChains chains) (hk : k < s.table.numDependencies) {j : ℕ}
    (hj : j < s.table.numDependencies) (hjk : j ≠ k)
    (hdis : Dismantled s.deps s'.deps (s.skipped k (chains k)) (s.remaining k (chains k)).head?)
    (htable : s'.table = s.table.setEntry k (s.remaining k (chains k)).head?) :
    s'.skipped j (chains j) = s.skipped j (chains j) ∧
      s'.remaining j (chains j) = s.remaining j (chains j) := by
  have hsame : ∀ x ∈ chains j, s'.deps.instOut x = s.deps.instOut x := by
    intro x hx
    have hskip : x ∉ s.skipped k (chains k) :=
      fun hskip => h.disjoint j hj k hk hjk hx (mem_of_skipped hskip)
    rw [hdis.instOut, if_neg hskip]
  have hentry : s'.table.producers j = s.table.producers j := by
    rw [htable]
    exact Function.update_of_ne hjk _ _
  have hhead : s'.headKilled j = s.headKilled j := by
    rw [headKilled, headKilled, hentry, (h.linked j hj).head]
    cases hc : chains j with
    | nil => rfl
    | cons a l =>
      have ha := hsame a (by rw [hc]; exact List.mem_cons_self)
      simp only [List.head?_cons, Option.any_some, Deps.killedOut, ha, hdis.isKilled]
  obtain ⟨htake, hdrop⟩ : (chains j).takeWhile (!s'.deps.liveOut ·)
      = (chains j).takeWhile (!s.deps.liveOut ·) ∧ (chains j).dropWhile (!s'.deps.liveOut ·)
      = (chains j).dropWhile (!s.deps.liveOut ·) :=
    takeWhile_congr_of_mem fun x hx => by
      rw [byInst_liveOut _ _ x (hsame x hx) hdis.isKilled]
  rw [skipped, skipped, remaining, remaining, hhead, htake, hdrop]
  exact ⟨rfl, rfl⟩

end DepState

variable [DecidableEq ι]

section
variable {d : Deps ι κ ν} {consumers : κ → List ι} {a : κ}

/-- One round of the loops over older producers. -/
theorem detachProducer_eq (h : Inv d consumers) (a : κ) :
    ∃ d', d.detachProducer a = some d' ∧ Inv d' (Function.update consumers a []) ∧
      (∀ x, d'.prevProducer x = if x = a then none else d.prevProducer x) ∧
      (∀ x, d'.nextProducer x = if d.prevProducer a = some x then none else d.nextProducer x) ∧
      (∀ x, d'.instOut x = if x = a then none else d.instOut x) ∧
      (∀ x, d'.consumer x = if x = a then none else d.consumer x) ∧
      d'.isKilled = d.isKilled := by
  obtain ⟨e, he, hprev, hnext, hinst, hrest⟩ : ∃ e : Deps ι κ ν,
      d.detachProducer a = e.removeOutputLinks a ∧
      (∀ x, e.prevProducer x = if x = a then none else d.prevProducer x) ∧
      (∀ x, e.nextProducer x = if d.prevProducer a = some x then none else d.nextProducer x) ∧
      (∀ x, e.instOut x = if x = a then none else d.instOut x) ∧
      e.nextConsumer = d.nextConsumer ∧ e.consumer = d.consumer ∧ e.producer = d.producer ∧
      e.prevConsumer = d.prevConsumer ∧ e.built = d.built ∧ e.isKilled = d.isKilled := by
    refine ⟨_, rfl, ?_, ?_, ?_, ?_⟩
    · intro x
      cases hlink : d.prevProducer a with
      | none =>
        by_cases hx : x = a
        · subst hx
          simp [hlink]
        · simp [hx]
      | some t => simp [Function.update_apply]
    · intro x
      cases hlink : d.prevProducer a with
      | none => simp
      | some t => simp [Function.update_apply, eq_comm]
    · intro x
      cases hlink : d.prevProducer a <;> simp [Function.update_apply]
    · cases hlink : d.prevProducer a <;> exact ⟨rfl, rfl, rfl, rfl, rfl, rfl⟩
  obtain ⟨hnextC, hconsumer, hproducer, hprevC, hbuilt, hkilled⟩ := hrest
  have hinv : Inv e consumers := h.kept hnextC hconsumer (fun p x _ => by rw [hproducer])
    (fun x y hy => hprevC ▸ hy) (by rw [hbuilt]; exact List.Subset.refl _)
  refine ⟨e.cutOff a (consumers a), he.trans (hinv.removeOutput a), hinv.cutOff a, hprev, hnext,
    hinst, ?_, hkilled⟩
  intro x
  simp [Deps.cutOff, Function.update_apply, hconsumer]

/-- The loop over older producers takes off the front part of the chain up to the first producer
where it stops. -/
theorem detachProducers_eq {stop : Deps ι κ ν → κ → Bool} (hstop : ByInst stop) {l : List κ}
    {h : Option κ} {n : ℕ} (hinv : Inv d consumers) (hlinked : Linked d.prevProducer h l)
    (hbacked : Backed d.nextProducer none l) (hn : l.length ≤ n) :
    ∃ d', Deps.detachProducers stop n h d = some (d', (l.dropWhile (!stop d ·)).head?) ∧
      Dismantled d d' (l.takeWhile (!stop d ·)) (l.dropWhile (!stop d ·)).head? ∧
      Inv d' (withoutConsumers consumers (l.takeWhile (!stop d ·))) := by
  induction l generalizing d consumers h n with
  | nil =>
    obtain rfl : h = none := hlinked
    refine ⟨d, by simp [Deps.detachProducers], ⟨by simp, by simp, by simp, by simp, rfl⟩, ?_⟩
    exact hinv
  | cons a l ih =>
    obtain rfl : h = some a := hlinked.1
    obtain ⟨m, rfl⟩ : ∃ m, n = m + 1 := Nat.exists_eq_succ_of_ne_zero (by simp at hn; omega)
    have hlen : l.length ≤ m := by simpa using hn
    cases hhere : stop d a with
    | true =>
      have htake : (a :: l).takeWhile (!stop d ·) = [] := by simp [hhere]
      have hdrop : (a :: l).dropWhile (!stop d ·) = a :: l := by simp [hhere]
      rw [htake, hdrop]
      refine ⟨d, by simp [Deps.detachProducers, hhere], ⟨by simp, ?_, by simp, by simp, rfl⟩, hinv⟩
      intro x
      by_cases hx : a = x
      · subst hx
        simp [hbacked.1]
      · simp [hx]
    | false =>
      have htake : (a :: l).takeWhile (!stop d ·) = a :: l.takeWhile (!stop d ·) := by simp [hhere]
      have hdrop : (a :: l).dropWhile (!stop d ·) = l.dropWhile (!stop d ·) := by simp [hhere]
      rw [htake, hdrop]
      obtain ⟨e, he, hinv', hprev, hnext, hinst, hconsumer, hkilled⟩ := detachProducer_eq hinv a
      have hfresh : ∀ x ∈ l, x ≠ a := by
        rintro x hx rfl
        exact (List.nodup_cons.mp hlinked.nodup).1 hx
      have hsame : ∀ x ∈ l, stop e x = stop d x := by
        intro x hx
        exact hstop _ _ _ (by rw [hinst, if_neg (hfresh x hx)]) hkilled
      have hlinked' : Linked e.prevProducer (d.prevProducer a) l := by
        refine hlinked.2.congr fun x hx => ?_
        rw [hprev, if_neg (hfresh x hx)]
      have hfirst : d.prevProducer a = l.head? := hlinked.2.head
      have hbacked' : Backed e.nextProducer none l := by
        have hparts : Backed d.nextProducer none ([a] ++ l) := hbacked
        refine hparts.behind ?_ ?_
        · intro x hx
          rw [hnext, if_pos (hfirst.trans hx)]
        · intro x hx
          have hne : d.prevProducer a ≠ some x := by
            rw [hfirst]
            cases l with
            | nil => simp at hx
            | cons b l =>
              intro hb
              obtain rfl := Option.some.inj hb
              exact (List.nodup_cons.mp (List.nodup_cons.mp hlinked.nodup).2).1 hx
          rw [hnext, if_neg hne]
      obtain ⟨d', hd', hdis, hinv''⟩ := ih hinv' hlinked' hbacked' hlen
      obtain ⟨htake', hdrop'⟩ : l.takeWhile (!stop e ·) = l.takeWhile (!stop d ·) ∧
          l.dropWhile (!stop e ·) = l.dropWhile (!stop d ·) :=
        takeWhile_congr_of_mem fun x hx => by rw [hsame x hx]
      rw [htake', hdrop'] at hdis
      rw [hdrop'] at hd'
      rw [htake'] at hinv''
      refine ⟨d', ?_, ?_, ?_⟩
      · simp [Deps.detachProducers, hhere, he, hd']
      · have hcover : ∀ x, d.prevProducer a = some x → x ∈ l.takeWhile (!stop d ·) ∨
            (l.dropWhile (!stop d ·)).head? = some x := by
          intro x hx
          rw [hfirst] at hx
          cases l with
          | nil => cases hx
          | cons b l =>
            obtain rfl := Option.some.inj hx
            cases hb : stop d b <;> simp [hb]
        refine ⟨?_, ?_, ?_, ?_, hdis.isKilled.trans hkilled⟩
        · intro x
          rw [hdis.prevProducer, hprev]
          by_cases hx : x = a <;> simp [hx]
        · intro x
          rw [hdis.nextProducer, hnext]
          by_cases hx : x ∈ l.takeWhile (!stop d ·) ∨ (l.dropWhile (!stop d ·)).head? = some x
          · rw [if_pos hx, if_pos (hx.imp_left (List.mem_cons_of_mem a))]
          · rw [if_neg hx, if_neg fun hlink => hx (hcover x hlink)]
            by_cases hxa : x = a
            · subst hxa
              simp [hbacked.1]
            · have hout : ¬ (x ∈ a :: l.takeWhile (!stop d ·) ∨
                  (l.dropWhile (!stop d ·)).head? = some x) := by
                simpa [hxa] using hx
              rw [if_neg hout]
        · intro x
          rw [hdis.instOut, hinst]
          by_cases hx : x = a <;> simp [hx]
        · intro x
          rw [hdis.consumer, hconsumer]
          by_cases hx : x = a <;> simp [hx]
      · have hlists : withoutConsumers consumers (a :: l.takeWhile (!stop d ·))
            = withoutConsumers (Function.update consumers a []) (l.takeWhile (!stop d ·)) := by
          funext p
          by_cases hp : p = a <;> simp [withoutConsumers, hp]
        rw [hlists]
        exact hinv''

end

namespace DepState
variable {s : DepState ι κ ν}

/-- What is left after some registers were restored. -/
structure Restored (s s' : DepState ι κ ν) (chains : ℕ → List κ) (l : List ℕ) : Prop where
  producers : ∀ k, s'.table.producers k
    = if k ∈ l then (s.remaining k (chains k)).head? else s.table.producers k
  cleared : ∀ k ∈ l, ∀ x ∈ s.skipped k (chains k), s'.deps.instOut x = none ∧
    s'.deps.consumer x = none ∧ s'.deps.prevProducer x = none ∧ s'.deps.nextProducer x = none
  ends : ∀ k ∈ l, ∀ x, (s.remaining k (chains k)).head? = some x → s'.deps.nextProducer x = none
  kept : ∀ x, (∀ k ∈ l, x ∉ s.skipped k (chains k)) → s'.deps.instOut x = s.deps.instOut x ∧
    s'.deps.consumer x = s.deps.consumer x ∧ s'.deps.prevProducer x = s.deps.prevProducer x
  keptNext : ∀ x, (∀ k ∈ l, x ∉ s.skipped k (chains k) ∧
    (s.remaining k (chains k)).head? ≠ some x) → s'.deps.nextProducer x = s.deps.nextProducer x
  isKilled : s'.deps.isKilled = s.deps.isKilled
  others : s'.table.numDependencies = s.table.numDependencies ∧ s'.physRegNum = s.physRegNum ∧
    s'.mapped = s.mapped

section Fold
variable {chains : ℕ → List κ} {consumers : κ → List ι} {fuel k : ℕ}

/-- What `RestoreDependencyState` does for one register. -/
theorem restoreEntry_eq (hinv : Inv s.deps consumers) (h : s.EntryChains chains)
    (hk : k < s.table.numDependencies) (hfuel : (chains k).length ≤ fuel) :
    ∃ s', restoreEntry fuel s k = some s' ∧
      Dismantled s.deps s'.deps (s.skipped k (chains k)) (s.remaining k (chains k)).head? ∧
      Inv s'.deps (withoutConsumers consumers (s.skipped k (chains k))) ∧
      s'.table = s.table.setEntry k (s.remaining k (chains k)).head? ∧
      s'.physRegNum = s.physRegNum ∧ s'.mapped = s.mapped := by
  have hentry : s.table.producers k = (chains k).head? := (h.linked k hk).head
  cases hkilled : s.headKilled k with
  | true =>
    have hskip : s.skipped k (chains k) = (chains k).takeWhile (!s.deps.liveOut ·) := if_pos hkilled
    have hrest : s.remaining k (chains k) = (chains k).dropWhile (!s.deps.liveOut ·) :=
      if_pos hkilled
    obtain ⟨prod, hprod, hdead⟩ : ∃ prod, s.table.producers k = some prod ∧
        s.deps.killedOut prod = true := (Option.any_eq_true _ _).mp hkilled
    have hend : s.deps.nextProducer prod = none := by
      have hb := h.backed k hk
      obtain ⟨l, hl⟩ : ∃ l, chains k = prod :: l := by
        cases hc : chains k with
        | nil => simp [hc, hprod] at hentry
        | cons a l => exact ⟨l, by rw [Option.some.inj (hprod.symm.trans (hc ▸ hentry))]⟩
      rw [hl] at hb
      exact hb.1
    obtain ⟨d', hd', hdis, hinv'⟩ :=
      detachProducers_eq byInst_liveOut hinv (h.linked k hk) (h.backed k hk) hfuel
    rw [hskip, hrest]
    refine ⟨{ s with deps := d', table := s.table.setEntry k _ }, ?_, hdis, hinv', rfl, rfl, rfl⟩
    rw [hprod] at hd'
    simp only [restoreEntry, hprod, hdead, hend, if_true, hd', Option.map_some]
  | false =>
    have hskip : s.skipped k (chains k) = [] := by simp [skipped, hkilled]
    have hrest : s.remaining k (chains k) = chains k := by simp [remaining, hkilled]
    rw [hskip, hrest]
    refine ⟨s, ?_, ⟨by simp, ?_, by simp, by simp, rfl⟩, hinv, ?_, rfl, rfl⟩
    · cases hprod : s.table.producers k with
      | none => simp [restoreEntry, hprod]
      | some prod =>
        have hlive : s.deps.killedOut prod = false := by simpa [headKilled, hprod] using hkilled
        simp [restoreEntry, hprod, hlive]
    · intro x
      by_cases hx : (chains k).head? = some x
      · have hb := h.backed k hk
        cases hc : chains k with
        | nil => simp [hc] at hx
        | cons a l =>
          obtain rfl : a = x := by simpa [hc] using hx
          rw [hc] at hb
          simp [hb.1]
      · simp [hx]
    · rw [← hentry, DepTable.setEntry, Function.update_eq_self]

/-- The loop over some registers. -/
theorem restoreEntries_eq {l : List ℕ} (hl : l.Nodup) (hinv : Inv s.deps consumers)
    (h : s.EntryChains chains) (hlt : ∀ k ∈ l, k < s.table.numDependencies)
    (hfuel : ∀ k ∈ l, (chains k).length ≤ fuel) :
    ∃ s' consumers', l.foldlM (restoreEntry fuel) s = some s' ∧ Inv s'.deps consumers' ∧
      s'.EntryChains (fun k => if k ∈ l then s.remaining k (chains k) else chains k) ∧
      Restored s s' chains l := by
  induction l generalizing s chains consumers with
  | nil =>
    refine ⟨s, consumers, rfl, hinv, by simpa using h, ?_⟩
    exact ⟨by simp, by simp, by simp, fun _ _ => ⟨rfl, rfl, rfl⟩, fun _ _ => rfl, rfl,
      rfl, rfl, rfl⟩
  | cons k l ih =>
    obtain ⟨hkl, hnodup⟩ := List.nodup_cons.mp hl
    have hk := hlt k List.mem_cons_self
    obtain ⟨t, ht, hdis, hinv', htable, hphys, hmapped⟩ :=
      restoreEntry_eq hinv h hk (hfuel k List.mem_cons_self)
    have hchains := h.dismantled hk (s.skipped_append_remaining k (chains k)) hdis htable
    have hnum : t.table.numDependencies = s.table.numDependencies := by rw [htable]; rfl
    have hne : ∀ j ∈ l, j ≠ k := by
      rintro j hj rfl
      exact hkl hj
    have hlater : ∀ j ∈ l, t.skipped j (chains j) = s.skipped j (chains j) ∧
        t.remaining j (chains j) = s.remaining j (chains j) := fun j hj =>
      h.later hk (hlt j (List.mem_cons_of_mem k hj)) (hne j hj) hdis htable
    have hupdate : ∀ j ∈ l, Function.update chains k (s.remaining k (chains k)) j = chains j :=
      fun j hj => Function.update_of_ne (hne j hj) _ _
    obtain ⟨s', consumers', hs', hinv'', hchains', hres⟩ := ih hnodup hinv' hchains
      (fun j hj => hnum ▸ hlt j (List.mem_cons_of_mem k hj))
      (fun j hj => by rw [hupdate j hj]; exact hfuel j (List.mem_cons_of_mem k hj))
    have hskip : ∀ j ∈ l, t.skipped j (Function.update chains k (s.remaining k (chains k)) j)
        = s.skipped j (chains j) := fun j hj => by rw [hupdate j hj, (hlater j hj).1]
    have hrest : ∀ j ∈ l, t.remaining j (Function.update chains k (s.remaining k (chains k)) j)
        = s.remaining j (chains j) := fun j hj => by rw [hupdate j hj, (hlater j hj).2]
    have hapart : ∀ x ∈ chains k, ∀ j ∈ l, x ∉ s.skipped j (chains j) ∧
        (s.remaining j (chains j)).head? ≠ some x := by
      intro x hx j hj
      have hdisjoint := h.disjoint k hk j (hlt j (List.mem_cons_of_mem k hj)) (hne j hj).symm hx
      exact ⟨fun hs => hdisjoint (mem_of_skipped hs),
        fun hr => hdisjoint (mem_of_remaining_head hr)⟩
    refine ⟨s', consumers', by rw [List.foldlM_cons, ht]; exact hs', hinv'', ?_, ?_⟩
    · have hfinal : (fun j => if j ∈ k :: l then s.remaining j (chains j) else chains j)
          = fun j => if j ∈ l then
              t.remaining j (Function.update chains k (s.remaining k (chains k)) j)
            else Function.update chains k (s.remaining k (chains k)) j := by
        funext j
        by_cases hjl : j ∈ l
        · simp [hjl, hrest j hjl]
        · by_cases hjk : j = k
          · subst hjk
            simp [hjl]
          · simp [hjl, hjk]
      rw [hfinal]
      exact hchains'
    · refine ⟨?_, ?_, ?_, ?_, ?_, hres.isKilled.trans hdis.isKilled, ?_⟩
      · intro j
        rw [hres.producers]
        by_cases hjl : j ∈ l
        · simp [hjl, hrest j hjl]
        · by_cases hjk : j = k
          · subst hjk
            simp [hjl, htable, DepTable.setEntry]
          · simp [hjl, hjk, htable, DepTable.setEntry]
      · intro j hj x hx
        rcases List.mem_cons.mp hj with rfl | hjl
        · have hapart' := hapart x (mem_of_skipped hx)
          obtain ⟨hinst, hcons, hprev⟩ := hres.kept x fun i hi => by
            rw [hskip i hi]
            exact (hapart' i hi).1
          have hnext := hres.keptNext x fun i hi => by
            rw [hskip i hi, hrest i hi]
            exact hapart' i hi
          rw [hinst, hcons, hprev, hnext, hdis.instOut, hdis.consumer, hdis.prevProducer,
            hdis.nextProducer, if_pos hx, if_pos hx, if_pos hx, if_pos (Or.inl hx)]
          exact ⟨rfl, rfl, rfl, rfl⟩
        · exact hres.cleared j hjl x (by rw [hskip j hjl]; exact hx)
      · intro j hj x hx
        rcases List.mem_cons.mp hj with rfl | hjl
        · have hnext := hres.keptNext x fun i hi => by
            rw [hskip i hi, hrest i hi]
            exact hapart x (mem_of_remaining_head hx) i hi
          rw [hnext, hdis.nextProducer, if_pos (Or.inr hx)]
        · exact hres.ends j hjl x (by rw [hrest j hjl]; exact hx)
      · intro x hx
        obtain ⟨hinst, hcons, hprev⟩ := hres.kept x fun i hi => by
          rw [hskip i hi]
          exact hx i (List.mem_cons_of_mem k hi)
        have hout := hx k List.mem_cons_self
        rw [hinst, hcons, hprev, hdis.instOut, hdis.consumer, hdis.prevProducer, if_neg hout,
          if_neg hout, if_neg hout]
        exact ⟨rfl, rfl, rfl⟩
      · intro x hx
        have hnext := hres.keptNext x fun i hi => by
          rw [hskip i hi, hrest i hi]
          exact hx i (List.mem_cons_of_mem k hi)
        rw [hnext, hdis.nextProducer, if_neg (not_or.mpr (hx k List.mem_cons_self))]
      · exact ⟨hres.others.1.trans hnum, hres.others.2.1.trans hphys,
          hres.others.2.2.trans hmapped⟩

end Fold

/-- A register whose entry belonged to a killed instruction, with its chain `l` before: the entry is
the first producer with a live instruction, the end of an older chain that is as it was, and the
producers in front of it are dismantled. -/
structure RestoredEntry (s s' : DepState ι κ ν) (k : ℕ) (l : List κ) : Prop where
  entry : s'.table.producers k = l.find? s.deps.liveOut
  last : ∀ x, s'.table.producers k = some x → s'.deps.nextProducer x = none
  linked : Linked s'.deps.prevProducer (s'.table.producers k) (l.dropWhile (!s.deps.liveOut ·))
  backed : Backed s'.deps.nextProducer none (l.dropWhile (!s.deps.liveOut ·))
  older : ∀ x ∈ l.dropWhile (!s.deps.liveOut ·), s'.deps.instOut x = s.deps.instOut x ∧
    s'.deps.consumer x = s.deps.consumer x ∧ s'.deps.prevProducer x = s.deps.prevProducer x
  cleared : ∀ x ∈ l.takeWhile (!s.deps.liveOut ·), s'.deps.instOut x = none ∧
    s'.deps.consumer x = none ∧ s'.deps.prevProducer x = none ∧ s'.deps.nextProducer x = none

/-- A register and its chain `l` are as they were. -/
structure UntouchedEntry (s s' : DepState ι κ ν) (k : ℕ) (l : List κ) : Prop where
  entry : s'.table.producers k = s.table.producers k
  kept : ∀ x ∈ l, s'.deps.instOut x = s.deps.instOut x ∧
    s'.deps.consumer x = s.deps.consumer x ∧ s'.deps.prevProducer x = s.deps.prevProducer x ∧
    s'.deps.nextProducer x = s.deps.nextProducer x

/-- `RestoreDependencyState` on doubly linked, disjoint chains ends and restores the registers whose
entries are killed, and no others. -/
theorem restoreDependencyState_restores {chains : ℕ → List κ} {consumers : κ → List ι} {fuel : ℕ}
    (hinv : Inv s.deps consumers) (h : s.EntryChains chains)
    (hfuel : ∀ k < s.table.numDependencies, (chains k).length ≤ fuel) :
    ∃ s', s.restoreDependencyState fuel = some s' ∧ ∀ k < s.table.numDependencies,
      (s.headKilled k = true → RestoredEntry s s' k (chains k)) ∧
      (s.headKilled k = false → UntouchedEntry s s' k (chains k)) := by
  obtain ⟨s', -, hs', -, hchains, hres⟩ := restoreEntries_eq List.nodup_range hinv h
    (fun k hk => List.mem_range.mp hk) fun k hk => hfuel k (List.mem_range.mp hk)
  refine ⟨s', hs', fun k hk => ?_⟩
  have hmem : k ∈ List.range s.table.numDependencies := List.mem_range.mpr hk
  have hk' : k < s'.table.numDependencies := by rw [hres.others.1]; exact hk
  have hlinked := hchains.linked k hk'
  have hbacked := hchains.backed k hk'
  have hentry := hres.producers k
  rw [if_pos hmem] at hlinked hbacked hentry
  have hother : ∀ x ∈ chains k, ∀ j ∈ List.range s.table.numDependencies, j ≠ k →
      x ∉ s.skipped j (chains j) ∧ (s.remaining j (chains j)).head? ≠ some x := by
    intro x hx j hj hjk
    have hdisjoint := h.disjoint k hk j (List.mem_range.mp hj) (Ne.symm hjk) hx
    exact ⟨fun hs => hdisjoint (mem_of_skipped hs), fun hr => hdisjoint (mem_of_remaining_head hr)⟩
  have hkept : ∀ x ∈ chains k, x ∉ s.skipped k (chains k) →
      s'.deps.instOut x = s.deps.instOut x ∧ s'.deps.consumer x = s.deps.consumer x ∧
      s'.deps.prevProducer x = s.deps.prevProducer x := by
    intro x hx hout
    refine hres.kept x fun j hj => ?_
    by_cases hjk : j = k
    · subst hjk
      exact hout
    · exact (hother x hx j hj hjk).1
  constructor
  · intro hkilled
    have hskip : s.skipped k (chains k) = (chains k).takeWhile (!s.deps.liveOut ·) := if_pos hkilled
    have hrest : s.remaining k (chains k) = (chains k).dropWhile (!s.deps.liveOut ·) :=
      if_pos hkilled
    have hnodup := (h.linked k hk).nodup
    rw [← s.skipped_append_remaining k (chains k)] at hnodup
    refine ⟨?_, ?_, hrest ▸ hlinked, hrest ▸ hbacked, ?_, ?_⟩
    · rw [hentry, hrest, List.find?_eq_head?_dropWhile_not]
    · intro x hx
      exact hres.ends k hmem x (hentry.symm.trans hx)
    · intro x hx
      rw [← hrest] at hx
      exact hkept x (mem_of_remaining hx) fun hskipped =>
        (List.nodup_append.mp hnodup).2.2 x hskipped x hx rfl
    · intro x hx
      exact hres.cleared k hmem x (hskip ▸ hx)
  · intro hlive
    have hskip : s.skipped k (chains k) = [] := by simp [skipped, hlive]
    have hrest : s.remaining k (chains k) = chains k := by simp [remaining, hlive]
    refine ⟨?_, ?_⟩
    · rw [hentry, hrest, (h.linked k hk).head]
    · intro x hx
      obtain ⟨hinst, hcons, hprev⟩ := hkept x hx (by simp [hskip])
      refine ⟨hinst, hcons, hprev, ?_⟩
      by_cases hhead : (chains k).head? = some x
      · have hbefore : s.deps.nextProducer x = none := by
          have hb := h.backed k hk
          cases hc : chains k with
          | nil => simp [hc] at hx
          | cons a l =>
            obtain rfl : a = x := by simpa [hc] using hhead
            rw [hc] at hb
            exact hb.1
        rw [hbefore]
        exact hres.ends k hmem x (by rw [hrest]; exact hhead)
      · refine hres.keptNext x fun j hj => ?_
        by_cases hjk : j = k
        · subst hjk
          rw [hskip, hrest]
          exact ⟨List.not_mem_nil, hhead⟩
        · exact hother x hx j hj hjk

end DepState

/-- Register 0 with a killed producer 1 in front of producer 0, and register 1 without one. -/
def oneKilled : DepState ℕ ℕ ℕ where
  deps := { created with
    prevProducer := fun x => if x = 1 then some 0 else none
    nextProducer := fun x => if x = 0 then some 1 else none
    isKilled := fun i => i = 1 }
  table := ⟨2, 0, by decide, fun k => if k = 0 then some 1 else none⟩
  physRegNum := fun _ => some 0
  mapped := [0, 1]

theorem oneKilled_restores :
    ∃ s', oneKilled.restoreDependencyState 2 = some s' ∧ ∀ k < oneKilled.table.numDependencies,
      (oneKilled.headKilled k = true →
        DepState.RestoredEntry oneKilled s' k (if k = 0 then [1, 0] else [])) ∧
      (oneKilled.headKilled k = false →
        DepState.UntouchedEntry oneKilled s' k (if k = 0 then [1, 0] else [])) := by
  have hfresh : oneKilled.deps.Fresh :=
    ⟨fun _ => rfl, fun _ => rfl, fun _ => rfl, fun _ => rfl, rfl⟩
  have hchains : oneKilled.EntryChains fun k => if k = 0 then [1, 0] else [] := by
    refine ⟨?_, ?_, ?_⟩
    · intro k _
      by_cases hk : k = 0 <;> simp [hk, oneKilled, Linked]
    · intro k _
      by_cases hk : k = 0 <;> simp [hk, oneKilled, Backed]
    · intro j _ k _ hjk
      by_cases hj : j = 0
      · have hk : k ≠ 0 := fun h => hjk (hj.trans h.symm)
        simp [hk]
      · simp [hj]
  refine DepState.restoreDependencyState_restores (Inv.fresh hfresh) hchains fun k _ => ?_
  by_cases hk : k = 0 <;> simp [hk]

end Awb.Dependency
