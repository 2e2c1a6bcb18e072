import Awb.Dependency.Objects
import Awb.Lib.LinkedChain
import Awb.Lib.Runs

/-! The consumers of every output as a list, and what each operation makes of the lists. -/

namespace Awb.Dependency
open Chain
variable {ι κ ν : Type}

section loops
variable {next : ι → Option ι} {l : List ι} {h : Option ι}

theorem lastConsumer_linked {n : Nat} {a : ι} (hl : Linked next (some a) l) (hn : l.length ≤ n) :
    ∃ e ∈ l, next e = none ∧ lastConsumer next n a = some e := by
  induction n generalizing a l with
  | zero =>
    cases l with
    | nil => cases hl
    | cons b l => simp at hn
  | succ n ih =>
    cases l with
    | nil => cases hl
    | cons b l =>
      obtain rfl : a = b := Option.some.inj hl.1
      rw [lastConsumer]
      cases hnext : next a with
      | none => exact ⟨a, List.mem_cons_self, hnext, rfl⟩
      | some c =>
        have hrest : Linked next (some c) l := hnext ▸ hl.2
        obtain ⟨e, he, hend, hlast⟩ := ih hrest (by simpa using hn)
        exact ⟨e, List.mem_cons_of_mem a he, hend, hlast⟩

variable [DecidableEq ι] [DecidableEq κ]

/-- The loop finds an input of the list and the consumer before it. -/
theorem findConsumer_mem {n : Nat} {x : ι} {y : Option ι} (hl : Linked next h l)
    (hn : l.length ≤ n) (hx : x ∈ l) :
    (h = some x ∧ findConsumer next x n h y = some (some x, y)) ∨
    ∃ p ∈ l, next p = some x ∧ findConsumer next x n h y = some (some x, some p) := by
  induction n generalizing h l y with
  | zero =>
    cases l with
    | nil => cases hx
    | cons b l => simp at hn
  | succ n ih =>
    cases l with
    | nil => cases hx
    | cons a l =>
      obtain rfl : h = some a := hl.1
      rw [findConsumer]
      by_cases hax : a = x
      · subst hax
        exact .inl ⟨rfl, if_pos rfl⟩
      · right
        rw [if_neg hax]
        have hxl : x ∈ l := List.mem_of_ne_of_mem (Ne.symm hax) hx
        rcases ih (y := some a) hl.2 (by simpa using hn) hxl with ⟨hnext, hfind⟩ | ⟨p, hp, hnext, hfind⟩
        · exact ⟨a, List.mem_cons_self, hnext, hfind⟩
        · exact ⟨p, List.mem_cons_of_mem a hp, hnext, hfind⟩

theorem findConsumer_not_mem {n : Nat} {x : ι} {y : Option ι} (hl : Linked next h l)
    (hn : l.length ≤ n) (hx : x ∉ l) :
    ∃ y', findConsumer next x n h y = some (none, y') := by
  induction l generalizing h n y with
  | nil =>
    obtain rfl : h = none := hl
    exact ⟨y, by cases n <;> rfl⟩
  | cons a l ih =>
    obtain rfl : h = some a := hl.1
    cases n with
    | zero => simp at hn
    | succ n =>
      have hax : a ≠ x := fun hax => hx (hax ▸ List.mem_cons_self)
      rw [findConsumer, if_neg hax]
      exact ih hl.2 (by simpa using hn) fun hxl => hx (List.mem_cons_of_mem a hxl)

theorem cutConsumers_linked {n : Nat} {producer : ι → Option κ} {p : κ} (hl : Linked next h l)
    (hn : l.length ≤ n) (hp : ∀ x ∈ l, producer x = some p ∨ producer x = none) :
    cutConsumers producer p n h next = some fun y => if y ∈ l then none else next y := by
  induction l generalizing h n next with
  | nil =>
    obtain rfl : h = none := hl
    cases n <;> simp [cutConsumers]
  | cons a l ih =>
    obtain rfl : h = some a := hl.1
    cases n with
    | zero => simp at hn
    | succ n =>
      have ha : a ∉ l := (List.nodup_cons.mp hl.nodup).1
      rw [cutConsumers, if_pos (hp a List.mem_cons_self)]
      have hrest : Linked (Function.update next a none) (next a) l := by
        apply hl.2.congr
        intro b hb
        have hba : b ≠ a := by
          rintro rfl
          exact ha hb
        exact Function.update_of_ne hba _ _
      rw [ih hrest (by simpa using hn) fun x hx => hp x (List.mem_cons_of_mem a hx)]
      congr 1
      funext y
      by_cases hya : y = a
      · subst hya
        simp
      · simp [hya]

theorem signal_linked {n : Nat} {cycle : UInt64} {ready : ι → UInt64} (hl : Linked next h l)
    (hn : l.length ≤ n) :
    signal next cycle n h ready = some fun y => if y ∈ l then cycle else ready y := by
  induction l generalizing h n ready with
  | nil =>
    obtain rfl : h = none := hl
    cases n <;> simp [signal]
  | cons a l ih =>
    obtain rfl : h = some a := hl.1
    cases n with
    | zero => simp at hn
    | succ n =>
      rw [signal, ih hl.2 (by simpa using hn)]
      congr 1
      funext y
      by_cases hya : y = a
      · subst hya
        simp
      · simp [hya]

end loops

/-- The consumers of each output are linked into a list; inputs on no list point to none on a
list, and what was not built yet is not pointed to. -/
structure Inv (d : Deps ι κ ν) (chain : κ → List ι) : Prop where
  linked : ∀ p, Linked d.nextConsumer (d.consumer p) (chain p)
  owner : ∀ p x, x ∈ chain p → d.producer x = some p
  loose : ∀ x, (∀ p, x ∉ chain p) → d.nextConsumer x = none
  prev : ∀ x y p, d.prevConsumer x = some y → y ∈ chain p → x ∈ chain p
  built : ∀ p x, x ∈ chain p → x ∈ d.built
  builtPrev : ∀ x y, d.prevConsumer x = some y → x ∈ d.built ∧ y ∈ d.built

namespace Inv
variable {d d' : Deps ι κ ν} {chain : κ → List ι} {x y : ι} {p q : κ}

theorem fresh (h : d.Fresh) : Inv d fun _ => [] where
  linked := h.consumer
  owner := fun _ _ hx => by cases hx
  loose := fun x _ => h.nextConsumer x
  prev := fun x y _ hy => by
    rw [h.prevConsumer x] at hy
    cases hy
  built := fun _ _ hx => by cases hx
  builtPrev := fun x y hy => by
    rw [h.prevConsumer x] at hy
    cases hy

theorem chain_eq (h : Inv d chain) (hp : x ∈ chain p) (hq : x ∈ chain q) : p = q :=
  Option.some.inj ((h.owner p x hp).symm.trans (h.owner q x hq))

theorem exists_chain (h : Inv d chain) (hx : d.nextConsumer x = some y) :
    ∃ p, x ∈ chain p ∧ y ∈ chain p := by
  by_contra hnone
  push Not at hnone
  have hloose : ∀ p, x ∉ chain p := fun p hp => hnone p hp ((h.linked p).next_mem hp hx)
  rw [h.loose x hloose] at hx
  cases hx

theorem mem_of_consumer (h : Inv d chain) (hx : d.consumer p = some x) : x ∈ chain p :=
  List.mem_of_mem_head? ((h.linked p).head.symm.trans hx)

/-- An input without a producer is on no list. -/
theorem loose_of_producer (h : Inv d chain) (hx : d.producer x = none) (p : κ) : x ∉ chain p := by
  intro hp
  cases hx.symm.trans (h.owner p x hp)

theorem mem_iff_of_producer (h : Inv d chain) (hx : d.producer x = some p) (q : κ) :
    x ∈ chain q ↔ q = p ∧ x ∈ chain p := by
  constructor
  · intro hq
    obtain rfl : q = p := Option.some.inj ((h.owner q x hq).symm.trans hx)
    exact ⟨rfl, hq⟩
  · rintro ⟨rfl, hq⟩
    exact hq

/-- Nothing points to an input that is on no list. -/
theorem next_ne_of_loose (h : Inv d chain) (hx : ∀ p, x ∉ chain p) (y : ι) :
    d.nextConsumer y ≠ some x := by
  intro hy
  obtain ⟨p, _, hp⟩ := h.exists_chain hy
  exact hx p hp

theorem consumer_ne_of_loose (h : Inv d chain) (hx : ∀ p, x ∉ chain p) (p : κ) :
    d.consumer p ≠ some x := fun hp => hx p (h.mem_of_consumer hp)

/-- The fuel suffices for every list. -/
theorem length_le (h : Inv d chain) (p : κ) : (chain p).length ≤ d.built.length :=
  ((h.linked p).nodup.subperm fun x hx => h.built p x hx).length_le

/-- Operations that touch no link of the lists. -/
theorem kept (h : Inv d chain) (hnext : d'.nextConsumer = d.nextConsumer)
    (hconsumer : d'.consumer = d.consumer)
    (hproducer : ∀ p x, x ∈ chain p → d'.producer x = d.producer x)
    (hprev : ∀ x y, d'.prevConsumer x = some y → d.prevConsumer x = some y)
    (hbuilt : d.built ⊆ d'.built) : Inv d' chain where
  linked p := by
    rw [hnext, hconsumer]
    exact h.linked p
  owner p x hx := (hproducer p x hx).trans (h.owner p x hx)
  loose x hx := by
    rw [hnext]
    exact h.loose x hx
  prev x y p hy hp := h.prev x y p (hprev x y hy) hp
  built p x hx := hbuilt (h.built p x hx)
  builtPrev x y hy := by
    obtain ⟨hx, hy⟩ := h.builtPrev x y (hprev x y hy)
    exact ⟨hbuilt hx, hbuilt hy⟩

variable [DecidableEq ι]

/-- An input leaves its list: what pointed to it points past it. -/
theorem erase (h : Inv d chain) (x : ι)
    (hconsumer : ∀ p, d'.consumer p = if d.consumer p = some x then d.nextConsumer x
      else d.consumer p)
    (hnext : ∀ y, d'.nextConsumer y = if y = x then none
      else if d.nextConsumer y = some x then d.nextConsumer x else d.nextConsumer y)
    (hproducer : d'.producer = Function.update d.producer x none)
    (hprev : ∀ y z, d'.prevConsumer y = some z → y ≠ x ∧
      (d.prevConsumer y = some z ∨ (d.nextConsumer x = some y ∧ d.prevConsumer x = some z)))
    (hbuilt : d'.built = d.built) : Inv d' fun p => (chain p).erase x := by
  have hmem : ∀ p y, y ∈ (chain p).erase x ↔ y ≠ x ∧ y ∈ chain p :=
    fun p y => (h.linked p).nodup.mem_erase_iff
  constructor
  · intro p
    apply (h.linked p).erase
    · intro y _ hyx
      rw [hnext y, if_neg hyx]
    · exact hconsumer p
  · intro p y hy
    obtain ⟨hyx, hy⟩ := (hmem p y).mp hy
    rw [hproducer, Function.update_of_ne hyx]
    exact h.owner p y hy
  · intro y hy
    rw [hnext y]
    by_cases hyx : y = x
    · rw [if_pos hyx]
    · have hloose : d.nextConsumer y = none :=
        h.loose y fun p hp => hy p ((hmem p y).mpr ⟨hyx, hp⟩)
      simp [hyx, hloose]
  · intro y z p hz hp
    obtain ⟨_, hzp⟩ := (hmem p z).mp hp
    obtain ⟨hyx, hz | ⟨hy, hz⟩⟩ := hprev y z hz
    · exact (hmem p y).mpr ⟨hyx, h.prev y z p hz hzp⟩
    · have hxp : x ∈ chain p := h.prev x z p hz hzp
      exact (hmem p y).mpr ⟨hyx, (h.linked p).next_mem hxp hy⟩
  · intro p y hy
    rw [hbuilt]
    exact h.built p y ((hmem p y).mp hy).2
  · intro y z hz
    rw [hbuilt]
    obtain ⟨_, hz | ⟨hy, hz⟩⟩ := hprev y z hz
    · exact h.builtPrev y z hz
    · obtain ⟨p, _, hyp⟩ := h.exists_chain hy
      exact ⟨h.built p y hyp, (h.builtPrev x z hz).2⟩

variable [DecidableEq κ]

/-- The list of an output is cut into its inputs. -/
theorem cut (h : Inv d chain) (q : κ)
    (hconsumer : d'.consumer = Function.update d.consumer q none)
    (hnext : ∀ y, d'.nextConsumer y = if y ∈ chain q then none else d.nextConsumer y)
    (hproducer : ∀ p y, p ≠ q → y ∈ chain p → d'.producer y = d.producer y)
    (hprev : ∀ y z, d'.prevConsumer y = some z → d.prevConsumer y = some z)
    (hbuilt : d'.built = d.built) : Inv d' (Function.update chain q []) := by
  have hmem : ∀ p y, y ∈ Function.update chain q [] p ↔ p ≠ q ∧ y ∈ chain p := by
    intro p y
    by_cases hpq : p = q
    · subst hpq
      simp
    · simp [hpq]
  constructor
  · intro p
    by_cases hpq : p = q
    · subst hpq
      simp only [hconsumer, Function.update_self]
      rfl
    · simp only [hconsumer, Function.update_of_ne hpq]
      apply (h.linked p).congr
      intro y hy
      have hyq : y ∉ chain q := fun hyq => hpq (h.chain_eq hy hyq)
      rw [hnext y, if_neg hyq]
  · intro p y hy
    obtain ⟨hpq, hy⟩ := (hmem p y).mp hy
    exact (hproducer p y hpq hy).trans (h.owner p y hy)
  · intro y hy
    rw [hnext y]
    by_cases hyq : y ∈ chain q
    · rw [if_pos hyq]
    · rw [if_neg hyq]
      apply h.loose
      intro p hp
      have hpq : p ≠ q := fun hpq => hyq (hpq ▸ hp)
      exact hy p ((hmem p y).mpr ⟨hpq, hp⟩)
  · intro y z p hz hp
    obtain ⟨hpq, hzp⟩ := (hmem p z).mp hp
    exact (hmem p y).mpr ⟨hpq, h.prev y z p (hprev y z hz) hzp⟩
  · intro p y hy
    rw [hbuilt]
    exact h.built p y ((hmem p y).mp hy).2
  · intro y z hz
    rw [hbuilt]
    exact h.builtPrev y z (hprev y z hz)

/-- A new input is put behind the list of an output. -/
theorem append (h : Inv d chain) (hx : x ∉ d.built) (p : κ)
    (hconsumer : d'.consumer = Function.update d.consumer p
      (if d.consumer p = none then some x else d.consumer p))
    (hself : d'.nextConsumer x = none)
    (hnext : ∀ y, y ≠ x → d'.nextConsumer y =
      if y ∈ chain p ∧ d.nextConsumer y = none then some x else d.nextConsumer y)
    (hproducer : d'.producer = Function.update d.producer x (some p))
    (hprev : ∀ y z, d'.prevConsumer y = some z → d.prevConsumer y = some z ∨
      (y = x ∧ z ∈ chain p))
    (hbuilt : d'.built = x :: d.built) :
    Inv d' (Function.update chain p (chain p ++ [x])) := by
  have hmem : ∀ q y, y ∈ Function.update chain p (chain p ++ [x]) q ↔
      y ∈ chain q ∨ (q = p ∧ y = x) := by
    intro q y
    by_cases hqp : q = p
    · subst hqp
      simp
    · simp [hqp]
  have hnew : ∀ q y, y ∈ chain q → y ≠ x := by
    rintro q y hy rfl
    exact hx (h.built q y hy)
  constructor
  · intro q
    by_cases hqp : q = p
    · subst hqp
      simp only [hconsumer, Function.update_self]
      apply (h.linked q).append _ hself rfl
      intro y hy
      simp [hnext y (hnew q y hy), hy]
    · simp only [hconsumer, Function.update_of_ne hqp]
      apply (h.linked q).congr
      intro y hy
      have hyp : y ∉ chain p := fun hyp => hqp (h.chain_eq hy hyp)
      simp [hnext y (hnew q y hy), hyp]
  · intro q y hy
    rw [hproducer]
    rcases (hmem q y).mp hy with hy | ⟨rfl, rfl⟩
    · rw [Function.update_of_ne (hnew q y hy)]
      exact h.owner q y hy
    · exact Function.update_self ..
  · intro y hy
    by_cases hyx : y = x
    · rw [hyx, hself]
    · have hloose : ∀ q, y ∉ chain q := fun q hq => hy q ((hmem q y).mpr (.inl hq))
      rw [hnext y hyx, if_neg fun hyp => hloose p hyp.1]
      exact h.loose y hloose
  · intro y z q hz hq
    rcases hprev y z hz with hz | ⟨rfl, hzp⟩
    · rcases (hmem q z).mp hq with hq | ⟨_, rfl⟩
      · exact (hmem q y).mpr (.inl (h.prev y z q hz hq))
      · exact absurd (h.builtPrev y z hz).2 hx
    · rcases (hmem q z).mp hq with hq | ⟨hqp, _⟩
      · exact (hmem q y).mpr (.inr ⟨h.chain_eq hq hzp, rfl⟩)
      · exact (hmem q y).mpr (.inr ⟨hqp, rfl⟩)
  · intro q y hy
    rw [hbuilt]
    rcases (hmem q y).mp hy with hy | ⟨_, rfl⟩
    · exact List.mem_cons_of_mem x (h.built q y hy)
    · exact List.mem_cons_self
  · intro y z hz
    rw [hbuilt]
    rcases hprev y z hz with hz | ⟨rfl, hzp⟩
    · obtain ⟨hy, hz⟩ := h.builtPrev y z hz
      exact ⟨List.mem_cons_of_mem x hy, List.mem_cons_of_mem x hz⟩
    · exact ⟨List.mem_cons_self, List.mem_cons_of_mem y (h.built p z hzp)⟩

end Inv

end Awb.Dependency
