import Mathlib.Logic.Relation
import Mathlib.Order.WellFounded
import Mathlib.Tactic

/-! A recursion over a graph that stops as soon as a node fails. There is no test for cycles, so it
gets fuel. It succeeds exactly if everything below the node is finite and opens, and it fails
exactly if a node that fails is met behind complete ones. -/

namespace Traverse
variable {α : Type*} {expand : ℕ → α → Option (Option (List α))}
  {v : α → Option Bool} {a b : α} {l : List α} {fuel more : ℕ}

/-- One node after the other, up to the first that fails. -/
def visitAll (v : α → Option Bool) : List α → Option Bool
  | [] => some true
  | a :: l => (v a).bind fun ok => if ok then visitAll v l else some false

/-- A node is expanded, which may fail or take more fuel, and then what it needs is visited. -/
def visit (expand : ℕ → α → Option (Option (List α))) : ℕ → α → Option Bool
  | 0, _ => none
  | fuel + 1, a => (expand fuel a).bind fun found =>
    found.elim (some false) (visitAll (visit expand fuel))

/-- More fuel does not change how a node is expanded. -/
def Stable (expand : ℕ → α → Option (Option (List α))) : Prop :=
  ∀ fuel more a found, fuel ≤ more → expand fuel a = some found → expand more a = some found

/-- What a node needs. -/
def Needs (expand : ℕ → α → Option (Option (List α))) (a b : α) : Prop :=
  ∃ fuel l, expand fuel a = some (some l) ∧ b ∈ l

def Opens (expand : ℕ → α → Option (Option (List α))) (a : α) : Prop :=
  ∃ fuel l, expand fuel a = some (some l)

def Fails (expand : ℕ → α → Option (Option (List α))) (a : α) : Prop :=
  ∃ fuel, expand fuel a = some none

/-- No endless path leaves the node, and everything below it opens. -/
structure Complete (expand : ℕ → α → Option (Option (List α))) (a : α) : Prop where
  ends : Acc (fun b a => Needs expand a b) a
  opens : ∀ b, Relation.ReflTransGen (Needs expand) a b → Opens expand b

/-- What a node needs behind complete ones. -/
def Reaches (expand : ℕ → α → Option (Option (List α))) (a b : α) : Prop :=
  ∃ fuel front back, expand fuel a = some (some (front ++ b :: back)) ∧
    ∀ c ∈ front, Complete expand c

/-! ### Lists of nodes -/

theorem visitAll_eq_true_iff : visitAll v l = some true ↔ ∀ a ∈ l, v a = some true := by
  induction l with
  | nil => simp [visitAll]
  | cons a l ih =>
    rw [visitAll, List.forall_mem_cons, ← ih]
    rcases v a with _ | _ | _ <;> simp

theorem visitAll_eq_false_iff : visitAll v l = some false ↔
    ∃ front a back, l = front ++ a :: back ∧ (∀ c ∈ front, v c = some true) ∧
      v a = some false := by
  induction l with
  | nil => simp [visitAll]
  | cons a l ih =>
    rw [visitAll]
    constructor
    · intro h
      obtain ⟨ok, ha, hok⟩ := Option.bind_eq_some_iff.mp h
      cases ok with
      | false => exact ⟨[], a, l, rfl, by simp, ha⟩
      | true =>
        obtain ⟨front, b, back, rfl, hfront, hb⟩ := ih.mp hok
        exact ⟨a :: front, b, back, rfl, List.forall_mem_cons.mpr ⟨ha, hfront⟩, hb⟩
    · rintro ⟨_ | ⟨c, front⟩, b, back, heq, hfront, hb⟩
      · obtain ⟨rfl, -⟩ := List.cons.inj heq
        rw [hb]
        rfl
      · obtain ⟨rfl, hl⟩ := List.cons.inj heq
        obtain ⟨ha, hfront⟩ := List.forall_mem_cons.mp hfront
        rw [ha]
        exact ih.mpr ⟨front, b, back, hl, hfront, hb⟩

theorem visitAll_mono {w : α → Option Bool} {ok : Bool}
    (hvw : ∀ b ok, v b = some ok → w b = some ok) (h : visitAll v l = some ok) :
    visitAll w l = some ok := by
  induction l with
  | nil => exact h
  | cons a l ih =>
    obtain ⟨here, ha, hrest⟩ := Option.bind_eq_some_iff.mp h
    rw [visitAll, hvw a here ha, Option.bind_some]
    cases here with
    | false => exact hrest
    | true => exact ih hrest

theorem visitAll_singleton (v : α → Option Bool) (a : α) : visitAll v [a] = v a := by
  rw [visitAll]
  rcases v a with _ | _ | _ <;> rfl

/-- Only some elements of a list are nodes to be visited. -/
theorem visitAll_filterMap_cons {β : Type*} (v : α → Option Bool) (node : β → Option α) (b : β)
    (l : List β) : visitAll v ((b :: l).filterMap node) =
      ((node b).elim (some true) v).bind fun ok =>
        if ok then visitAll v (l.filterMap node) else some false := by
  cases h : node b with
  | none =>
    rw [List.filterMap_cons_none h]
    rfl
  | some a =>
    rw [List.filterMap_cons_some h]
    rfl

/-! ### Success -/

section Stable
variable (hstable : Stable expand)
include hstable

theorem expand_unique {found found' : Option (List α)} (h : expand fuel a = some found)
    (h' : expand more a = some found') : found = found' := by
  rcases le_total fuel more with hle | hle
  · exact Option.some.inj ((hstable _ _ _ _ hle h).symm.trans h')
  · exact Option.some.inj (h.symm.trans (hstable _ _ _ _ hle h'))

theorem complete_iff_of_expand (h : expand fuel a = some (some l)) :
    Complete expand a ↔ ∀ b ∈ l, Complete expand b := by
  constructor
  · intro ha b hb
    have hneeds : Needs expand a b := ⟨fuel, l, h, hb⟩
    exact ⟨ha.ends.inv hneeds, fun c hc => ha.opens c (hc.head hneeds)⟩
  · intro hl
    have hmem : ∀ b, Needs expand a b → b ∈ l := by
      rintro b ⟨fuel', l', h', hb⟩
      rwa [Option.some.inj (expand_unique hstable h h')]
    refine ⟨Acc.intro a fun b hb => (hl b (hmem b hb)).ends, fun c hc => ?_⟩
    rcases Relation.ReflTransGen.cases_head hc with rfl | ⟨b, hb, hc⟩
    · exact ⟨fuel, l, h⟩
    · exact (hl b (hmem b hb)).opens c hc

theorem visit_mono {ok : Bool} (hle : fuel ≤ more) (h : visit expand fuel a = some ok) :
    visit expand more a = some ok := by
  induction fuel generalizing a more ok with
  | zero => cases h
  | succ fuel ih =>
    obtain ⟨more, rfl⟩ := Nat.exists_eq_succ_of_ne_zero (Nat.ne_of_gt (Nat.lt_of_lt_of_le
      (Nat.succ_pos fuel) hle))
    have hle' := Nat.le_of_succ_le_succ hle
    obtain ⟨found, hexpand, hfound⟩ := Option.bind_eq_some_iff.mp h
    rw [visit, hstable _ _ _ _ hle' hexpand, Option.bind_some]
    cases found with
    | none => exact hfound
    | some l => exact visitAll_mono (fun _ _ => ih hle') hfound

/-- One amount of fuel is enough for finitely many nodes. -/
theorem exists_fuel (h : ∀ b ∈ l, ∃ fuel, visit expand fuel b = some true) (start : ℕ) :
    ∃ fuel ≥ start, ∀ b ∈ l, visit expand fuel b = some true := by
  induction l with
  | nil => exact ⟨start, le_rfl, fun _ hb => absurd hb List.not_mem_nil⟩
  | cons a l ih =>
    obtain ⟨⟨here, hhere⟩, hrest⟩ := List.forall_mem_cons.mp h
    obtain ⟨rest, hstart, hrest⟩ := ih hrest
    refine ⟨max here rest, hstart.trans (le_max_right ..),
      List.forall_mem_cons.mpr ⟨?_, fun b hb => ?_⟩⟩
    · exact visit_mono hstable (le_max_left ..) hhere
    · exact visit_mono hstable (le_max_right ..) (hrest b hb)

/-- The recursion succeeds exactly on complete nodes. -/
theorem visit_eq_true_iff : (∃ fuel, visit expand fuel a = some true) ↔ Complete expand a := by
  constructor
  · rintro ⟨fuel, h⟩
    induction fuel generalizing a with
    | zero => cases h
    | succ fuel ih =>
      obtain ⟨found, hexpand, hfound⟩ := Option.bind_eq_some_iff.mp h
      cases found with
      | none => cases hfound
      | some l =>
        rw [Option.elim, visitAll_eq_true_iff] at hfound
        exact (complete_iff_of_expand hstable hexpand).mpr fun b hb => ih (hfound b hb)
  · rintro ⟨hends, hopens⟩
    induction hends with
    | intro a _ ih =>
      obtain ⟨start, l, hexpand⟩ := hopens a Relation.ReflTransGen.refl
      obtain ⟨fuel, hstart, hfuel⟩ := exists_fuel hstable (fun b hb => by
        have hneeds : Needs expand a b := ⟨start, l, hexpand, hb⟩
        exact ih b hneeds fun c hc => hopens c (hc.head hneeds)) start
      refine ⟨fuel + 1, ?_⟩
      rw [visit, hstable _ _ _ _ hstart hexpand]
      exact visitAll_eq_true_iff.mpr hfuel

/-! ### Failure -/

/-- The recursion fails exactly where it comes to a node that fails. -/
theorem visit_eq_false_iff : (∃ fuel, visit expand fuel a = some false) ↔
    ∃ b, Relation.ReflTransGen (Reaches expand) a b ∧ Fails expand b := by
  constructor
  · rintro ⟨fuel, h⟩
    induction fuel generalizing a with
    | zero => cases h
    | succ fuel ih =>
      obtain ⟨found, hexpand, hfound⟩ := Option.bind_eq_some_iff.mp h
      cases found with
      | none => exact ⟨a, Relation.ReflTransGen.refl, fuel, hexpand⟩
      | some l =>
        rw [Option.elim, visitAll_eq_false_iff] at hfound
        obtain ⟨front, b, back, rfl, hfront, hb⟩ := hfound
        obtain ⟨c, hc, hfails⟩ := ih hb
        refine ⟨c, hc.head ⟨fuel, front, back, hexpand, fun d hd => ?_⟩, hfails⟩
        exact (visit_eq_true_iff hstable).mp ⟨fuel, hfront d hd⟩
  · rintro ⟨b, hb, start, hstart⟩
    induction hb using Relation.ReflTransGen.head_induction_on with
    | refl => exact ⟨start + 1, by rw [visit, hstart]; rfl⟩
    | head h _ ih =>
      obtain ⟨here, front, back, hexpand, hfront⟩ := h
      obtain ⟨below, hbelow⟩ := ih
      obtain ⟨fuel, hle, hfuel⟩ := exists_fuel hstable
        (fun c hc => (visit_eq_true_iff hstable).mpr (hfront c hc)) (max here below)
      refine ⟨fuel + 1, ?_⟩
      rw [visit, hstable _ _ _ _ ((le_max_left ..).trans hle) hexpand]
      exact visitAll_eq_false_iff.mpr ⟨front, _, back, rfl, hfuel,
        visit_mono hstable ((le_max_right ..).trans hle) hbelow⟩

/-- Without an endless path, and if every node opens or fails, the recursion ends. -/
theorem exists_visit (hends : Acc (fun b a => Needs expand a b) a)
    (hexpands : ∀ b, Relation.ReflTransGen (Needs expand) a b →
      Opens expand b ∨ Fails expand b) : ∃ fuel ok, visit expand fuel a = some ok := by
  induction hends with
  | intro a _ ih =>
    rcases hexpands a Relation.ReflTransGen.refl with ⟨start, l, hexpand⟩ | ⟨start, hexpand⟩
    · have hbelow : ∀ b ∈ l, ∃ fuel ok, visit expand fuel b = some ok := fun b hb => by
        have hneeds : Needs expand a b := ⟨start, l, hexpand, hb⟩
        exact ih b hneeds fun c hc => hexpands c (hc.head hneeds)
      obtain ⟨fuel, ok, hall⟩ : ∃ fuel ok, visitAll (visit expand fuel) l = some ok := by
        clear hexpand ih
        induction l with
        | nil => exact ⟨0, true, rfl⟩
        | cons b l ih =>
          obtain ⟨⟨here, okHere, hhere⟩, hrest⟩ := List.forall_mem_cons.mp hbelow
          obtain ⟨rest, ok, hrest⟩ := ih hrest
          have hhere' := visit_mono hstable (le_max_left here rest) hhere
          cases okHere with
          | false => exact ⟨max here rest, false, by rw [visitAll, hhere']; rfl⟩
          | true =>
            refine ⟨max here rest, ok, ?_⟩
            rw [visitAll, hhere']
            exact visitAll_mono (fun _ _ => visit_mono hstable (le_max_right here rest)) hrest
      refine ⟨max start fuel + 1, ok, ?_⟩
      rw [visit, hstable _ _ _ _ (le_max_left ..) hexpand]
      exact visitAll_mono (fun _ _ => visit_mono hstable (le_max_right start fuel)) hall
    · exact ⟨start + 1, false, by rw [visit, hexpand]; rfl⟩

end Stable

/-- Among finitely many nodes there is no endless path without a cycle. -/
theorem acc_of_finite {nodes : Set α} (hfinite : nodes.Finite)
    (hclosed : ∀ a ∈ nodes, ∀ b, Needs expand a b → b ∈ nodes)
    (hacyclic : ∀ a ∈ nodes, ¬ Relation.TransGen (Needs expand) a a) (ha : a ∈ nodes) :
    Acc (fun b a => Needs expand a b) a := by
  let below : nodes → nodes → Prop := fun b a => Relation.TransGen (Needs expand) a.1 b.1
  have : Finite nodes := hfinite
  have : IsTrans nodes below := ⟨fun _ _ _ hab hbc => hbc.trans hab⟩
  have : Std.Irrefl below := ⟨fun a h => hacyclic a.1 a.2 h⟩
  have hwf : WellFounded below := Finite.wellFounded_of_trans_of_irrefl below
  have hacc : ∀ a : nodes, Acc below a → Acc (fun b a => Needs expand a b) a.1 := by
    intro a hbelow
    induction hbelow with
    | intro a _ ih =>
      exact Acc.intro _ fun b hb => ih ⟨b, hclosed a.1 a.2 b hb⟩ (Relation.TransGen.single hb)
  exact hacc ⟨a, ha⟩ (hwf.apply _)

end Traverse
