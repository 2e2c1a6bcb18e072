import Mathlib.Data.Finset.Card
import Mathlib.Logic.Relation
import Mathlib.Tactic

/-! A depth-first search that goes through lists of nodes and enters each node once. What it visits
is what can be reached, and it ends if the graph is finite. -/

namespace DepthFirst
variable {α : Type*}

/-- From the visited nodes and a list of nodes to look at, the search comes to more visited nodes,
having examined some nodes in their order. -/
inductive Search (next : α → List α) : List α → List α → List α → List α → Prop
  | nil (visited : List α) : Search next visited [] visited []
  | skip {a : α} {visited todo visited' examined : List α} : a ∈ visited →
      Search next visited todo visited' examined →
      Search next visited (a :: todo) visited' (a :: examined)
  | enter {a : α} {visited todo visited₁ visited₂ examined₁ examined₂ : List α} : a ∉ visited →
      Search next (visited ++ [a]) (next a) visited₁ examined₁ →
      Search next visited₁ todo visited₂ examined₂ →
      Search next visited (a :: todo) visited₂ (a :: (examined₁ ++ examined₂))

/-- One node leads to another. -/
def Leads (next : α → List α) (a b : α) : Prop := b ∈ next a

namespace Search
variable {next : α → List α} {visited todo visited' examined : List α} {a b : α}

theorem subset (h : Search next visited todo visited' examined) : visited ⊆ visited' := by
  induction h with
  | nil => exact List.Subset.refl _
  | skip _ _ ih => exact ih
  | enter _ _ _ ih₁ ih₂ => exact fun b hb => ih₂ (ih₁ (List.mem_append_left _ hb))

theorem nodup (h : Search next visited todo visited' examined) (hvisited : visited.Nodup) :
    visited'.Nodup := by
  induction h with
  | nil => exact hvisited
  | skip _ _ ih => exact ih hvisited
  | @enter a visited _ _ _ _ _ ha _ _ ih₁ ih₂ =>
    refine ih₂ (ih₁ (List.nodup_append.mpr ⟨hvisited, List.nodup_singleton a, ?_⟩))
    intro b hb c hc heq
    obtain rfl := List.mem_singleton.mp hc
    exact ha (heq ▸ hb)

/-- Everything that is examined is visited. -/
theorem examined_subset (h : Search next visited todo visited' examined) :
    examined ⊆ visited' := by
  induction h with
  | nil => exact List.nil_subset _
  | skip ha h ih => exact List.cons_subset.mpr ⟨h.subset ha, ih⟩
  | enter _ h₁ h₂ ih₁ ih₂ =>
    refine List.cons_subset.mpr ⟨h₂.subset (h₁.subset (by simp)), fun b hb => ?_⟩
    rcases List.mem_append.mp hb with hb | hb
    · exact h₂.subset (ih₁ hb)
    · exact ih₂ hb

theorem todo_subset (h : Search next visited todo visited' examined) : todo ⊆ examined := by
  induction h with
  | nil => exact List.nil_subset _
  | skip _ _ ih => exact List.cons_subset_cons _ ih
  | enter _ _ _ _ ih₂ =>
    exact List.cons_subset_cons _ fun b hb => List.mem_append_right _ (ih₂ hb)

/-- A node that has become visited was examined. -/
theorem mem_or_examined (h : Search next visited todo visited' examined) (ha : a ∈ visited') :
    a ∈ visited ∨ a ∈ examined := by
  induction h with
  | nil => exact Or.inl ha
  | skip _ _ ih => exact (ih ha).imp_right (List.mem_cons_of_mem _)
  | enter _ _ _ ih₁ ih₂ =>
    rcases ih₂ ha with ha | ha
    · rcases ih₁ ha with ha | ha
      · rcases List.mem_append.mp ha with ha | ha
        · exact Or.inl ha
        · obtain rfl := List.mem_singleton.mp ha
          exact Or.inr List.mem_cons_self
      · exact Or.inr (List.mem_cons_of_mem _ (List.mem_append_left _ ha))
    · exact Or.inr (List.mem_cons_of_mem _ (List.mem_append_right _ ha))

/-- Of a node that has become visited, all next ones are visited, too. -/
theorem next_subset (h : Search next visited todo visited' examined) (ha : a ∈ visited') :
    a ∈ visited ∨ next a ⊆ visited' := by
  induction h with
  | nil => exact Or.inl ha
  | skip _ _ ih => exact ih ha
  | enter _ h₁ h₂ ih₁ ih₂ =>
    rcases ih₂ ha with ha | ha
    · rcases ih₁ ha with ha | ha
      · rcases List.mem_append.mp ha with ha | ha
        · exact Or.inl ha
        · obtain rfl := List.mem_singleton.mp ha
          exact Or.inr fun b hb => h₂.subset (h₁.examined_subset (h₁.todo_subset hb))
      · exact Or.inr fun b hb => h₂.subset (ha hb)
    · exact Or.inr ha

theorem reached (h : Search next visited todo visited' examined) (ha : a ∈ visited') :
    a ∈ visited ∨ ∃ b ∈ todo, Relation.ReflTransGen (Leads next) b a := by
  induction h with
  | nil => exact Or.inl ha
  | skip _ _ ih =>
    refine (ih ha).imp_right ?_
    rintro ⟨b, hb, hpath⟩
    exact ⟨b, List.mem_cons_of_mem _ hb, hpath⟩
  | enter _ _ _ ih₁ ih₂ =>
    rcases ih₂ ha with ha | ⟨b, hb, hpath⟩
    · rcases ih₁ ha with ha | ⟨b, hb, hpath⟩
      · rcases List.mem_append.mp ha with ha | ha
        · exact Or.inl ha
        · obtain rfl := List.mem_singleton.mp ha
          exact Or.inr ⟨a, List.mem_cons_self, .refl⟩
      · exact Or.inr ⟨_, List.mem_cons_self, .head hb hpath⟩
    · exact Or.inr ⟨b, List.mem_cons_of_mem _ hb, hpath⟩

/-- From one node exactly what can be reached is visited. -/
theorem mem_iff (h : Search next [a] (next a) visited' examined) :
    b ∈ visited' ↔ Relation.ReflTransGen (Leads next) a b := by
  constructor
  · intro hb
    rcases h.reached hb with hb | ⟨c, hc, hpath⟩
    · obtain rfl := List.mem_singleton.mp hb
      exact .refl
    · exact .head hc hpath
  · intro hpath
    induction hpath with
    | refl => exact h.subset List.mem_cons_self
    | @tail c d _ hstep ih =>
      rcases h.next_subset ih with hc | hc
      · obtain rfl := List.mem_singleton.mp hc
        exact h.examined_subset (h.todo_subset hstep)
      · exact hc hstep

end Search

/-- In a finite graph the search ends. -/
theorem search_total [DecidableEq α] {next : α → List α} {nodes : Finset α}
    (hnodes : ∀ a ∈ nodes, ∀ b ∈ next a, b ∈ nodes) {visited todo : List α}
    (htodo : ∀ a ∈ todo, a ∈ nodes) :
    ∃ visited' examined, Search next visited todo visited' examined := by
  generalize hcard : (nodes \ visited.toFinset).card = n
  induction n using Nat.strong_induction_on generalizing visited todo with
  | _ n ih =>
    induction todo generalizing visited n with
    | nil => exact ⟨visited, [], .nil visited⟩
    | cons a todo ihtodo =>
      obtain ⟨ha, htodo⟩ := List.forall_mem_cons.mp htodo
      by_cases hvisited : a ∈ visited
      · obtain ⟨visited', examined, h⟩ := ihtodo n ih htodo hcard
        exact ⟨visited', a :: examined, .skip hvisited h⟩
      · have hless : (nodes \ (visited ++ [a]).toFinset).card < n := by
          rw [← hcard]
          refine Finset.card_lt_card (Finset.ssubset_iff_of_subset ?_ |>.mpr ⟨a, ?_, ?_⟩)
          · intro b hb
            simp only [Finset.mem_sdiff, List.mem_toFinset, List.mem_append] at hb ⊢
            exact ⟨hb.1, fun hmem => hb.2 (Or.inl hmem)⟩
          · simp [ha, hvisited]
          · simp
        obtain ⟨visited₁, examined₁, h₁⟩ := ih _ hless (hnodes a ha) rfl
        have hle : (nodes \ visited₁.toFinset).card ≤ (nodes \ (visited ++ [a]).toFinset).card := by
          refine Finset.card_le_card fun b hb => ?_
          simp only [Finset.mem_sdiff, List.mem_toFinset] at hb ⊢
          exact ⟨hb.1, fun hmem => hb.2 (h₁.subset hmem)⟩
        obtain ⟨visited₂, examined₂, h₂⟩ := ih _ (lt_of_le_of_lt hle hless) htodo rfl
        exact ⟨visited₂, _, .enter hvisited h₁ h₂⟩

end DepthFirst
