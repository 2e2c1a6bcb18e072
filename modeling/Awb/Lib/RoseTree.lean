import Mathlib.Tactic

/-! Trees some of whose places may be empty, and attributes that are handed down from the root.
An attribute that keeps the subtrees of a node apart is different at every node. -/

/-- A labelled tree with a list of places for subtrees. -/
inductive RoseTree (α : Type*) where
  | node (label : α) (subs : List (Option (RoseTree α)))

namespace RoseTree
variable {α β γ : Type*}

def label : RoseTree α → α
  | node a _ => a

def subs : RoseTree α → List (Option (RoseTree α))
  | node _ l => l

/-- The subtrees that are there. -/
def children (t : RoseTree α) : List (RoseTree α) := t.subs.filterMap id

@[simp] theorem mem_children {t s : RoseTree α} : s ∈ t.children ↔ some s ∈ t.subs := by
  simp [children]

mutual

/-- Induction with the hypothesis for the subtrees that are there. -/
theorem induct {P : RoseTree α → Prop} (h : ∀ a subs, (∀ s, some s ∈ subs → P s) → P (node a subs)) :
    ∀ t, P t
  | node a subs => h a subs (induct_subs h subs)

theorem induct_subs {P : RoseTree α → Prop}
    (h : ∀ a subs, (∀ s, some s ∈ subs → P s) → P (node a subs)) :
    ∀ (l : List (Option (RoseTree α))) (s : RoseTree α), some s ∈ l → P s
  | [], _, hs => absurd hs List.not_mem_nil
  | none :: l, s, hs => induct_subs h l s (by simpa using hs)
  | some t :: l, s, hs => by
    rcases List.mem_cons.mp hs with he | hs
    · exact Option.some.inj he ▸ induct h t
    · exact induct_subs h l s hs

end

mutual

/-- All subtrees with their attribute, the root first: `f` gives the attribute of a subtree from
that of the node above it and the labels of both. -/
def down (f : β → α → α → β) (b : β) : RoseTree α → List (β × RoseTree α)
  | node a subs => (b, node a subs) :: downSubs f b a subs

def downSubs (f : β → α → α → β) (b : β) (a : α) :
    List (Option (RoseTree α)) → List (β × RoseTree α)
  | [] => []
  | none :: l => downSubs f b a l
  | some t :: l => down f (f b a t.label) t ++ downSubs f b a l

end

variable {f : β → α → α → β}

theorem downSubs_eq (b : β) (a : α) (l : List (Option (RoseTree α))) :
    downSubs f b a l = (l.filterMap id).flatMap fun s => down f (f b a s.label) s := by
  induction l with
  | nil => rfl
  | cons o l ih => cases o <;> simp [downSubs, ih]

theorem down_eq (b : β) (t : RoseTree α) : down f b t =
    (b, t) :: t.children.flatMap fun s => down f (f b t.label s.label) s := by
  cases t with
  | node a subs => rw [down, downSubs_eq]; rfl

/-- All subtrees, the root first. -/
def nodes (t : RoseTree α) : List (RoseTree α) :=
  (down (fun _ _ _ => ()) () t).map fun p => p.2

theorem map_snd_down (b : β) (t : RoseTree α) : (down f b t).map (fun p => p.2) = nodes t := by
  induction t using induct generalizing b with
  | h a subs ih =>
    rw [nodes, down_eq, down_eq, List.map_cons, List.map_cons, List.map_flatMap, List.map_flatMap]
    congr 1
    refine List.flatMap_congr fun s hs => ?_
    exact ih s (mem_children.mp hs) _

theorem nodes_eq (t : RoseTree α) : nodes t = t :: t.children.flatMap nodes := by
  rw [nodes, down_eq, List.map_cons, List.map_flatMap]
  rfl

/-- Keys that are distinct in a tree tell the root and the subtrees apart. -/
theorem keys_of_nodup {key : RoseTree α → γ} {t : RoseTree α} (h : (t.nodes.map key).Nodup) :
    (∀ s ∈ t.children, key t ∉ s.nodes.map key) ∧
    (∀ s ∈ t.children, (s.nodes.map key).Nodup) ∧
    ∀ s ∈ t.children, ∀ s' ∈ t.children, ∀ x, x ∈ s.nodes.map key → x ∈ s'.nodes.map key →
      s = s' := by
  rw [nodes_eq, List.map_cons, List.nodup_cons, List.map_flatMap, List.nodup_flatMap] at h
  obtain ⟨hroot, hsubs, hdis⟩ := h
  refine ⟨fun s hs hx => hroot (List.mem_flatMap.mpr ⟨s, hs, hx⟩), hsubs, ?_⟩
  intro s hs s' hs' x hx hx'
  by_contra hne
  have hsymm : Std.Symm (Function.onFun List.Disjoint fun s : RoseTree α => s.nodes.map key) :=
    ⟨fun _ _ h => h.symm⟩
  exact hdis.forall hs hs' hne hx hx'

theorem forall_mem_down {b : β} {t : RoseTree α} {P : β × RoseTree α → Prop} :
    (∀ p ∈ down f b t, P p) ↔
      P (b, t) ∧ ∀ s ∈ t.children, ∀ p ∈ down f (f b t.label s.label) s, P p := by
  rw [down_eq, List.forall_mem_cons]
  refine and_congr_right fun _ => ⟨fun h s hs p hp => ?_, fun h p hp => ?_⟩
  · exact h p (List.mem_flatMap.mpr ⟨s, hs, hp⟩)
  · obtain ⟨s, hs, hp⟩ := List.mem_flatMap.mp hp
    exact h s hs p hp

theorem self_mem_down (b : β) (t : RoseTree α) : (b, t) ∈ down f b t := by
  rw [down_eq]
  exact List.mem_cons_self ..

theorem mem_down_of_child {b : β} {t s : RoseTree α} (hs : s ∈ t.children) {p : β × RoseTree α}
    (hp : p ∈ down f (f b t.label s.label) s) : p ∈ down f b t := by
  rw [down_eq]
  exact List.mem_cons_of_mem _ (List.mem_flatMap.mpr ⟨s, hs, hp⟩)

/-- The subtrees of a listed subtree are listed, with their attribute. -/
theorem sub_mem_down {b : β} {t : RoseTree α} : ∀ p ∈ down f b t, ∀ s ∈ p.2.children,
    (f p.1 p.2.label s.label, s) ∈ down f b t := by
  induction t using induct generalizing b with
  | h a subs ih =>
    refine forall_mem_down.mpr ⟨fun s hs => ?_, fun t ht p hp s hs => ?_⟩
    · exact mem_down_of_child hs (self_mem_down _ _)
    · exact mem_down_of_child ht (ih t (mem_children.mp ht) p hp s hs)

/-- What the root's attribute has and every step down keeps, all attributes have. -/
theorem forall_attribute (Inv : β → Prop) {b : β} {t : RoseTree α} (hroot : Inv b)
    (hstep : ∀ p ∈ down f b t, Inv p.1 → ∀ s ∈ p.2.children, Inv (f p.1 p.2.label s.label)) :
    ∀ p ∈ down f b t, Inv p.1 := by
  induction t using induct generalizing b with
  | h a subs ih =>
    refine forall_mem_down.mpr ⟨hroot, fun s hs => ?_⟩
    obtain ⟨hself, hsubs⟩ := forall_mem_down.mp hstep
    exact ih s (mem_children.mp hs) (hself hroot s hs) (hsubs s hs)

/-- At a node the subtrees own disjoint parts of what the node owns, and not its own key. -/
structure Separated (f : β → α → α → β) (key : β → γ) (Owns : β → γ → Prop)
    (p : β × RoseTree α) : Prop where
  owns : ∀ s ∈ p.2.children, ∀ x, Owns (f p.1 p.2.label s.label) x → Owns p.1 x
  proper : ∀ s ∈ p.2.children, ¬ Owns (f p.1 p.2.label s.label) (key p.1)
  disjoint : p.2.children.Pairwise fun s s' =>
    ∀ x, Owns (f p.1 p.2.label s.label) x → ¬ Owns (f p.1 p.2.label s'.label) x

theorem owns_of_mem_down {key : β → γ} {Owns : β → γ → Prop} (self : ∀ b, Owns b (key b))
    {b : β} {t : RoseTree α} (hsep : ∀ p ∈ down f b t, Separated f key Owns p) :
    ∀ p ∈ down f b t, Owns b (key p.1) := by
  induction t using induct generalizing b with
  | h a subs ih =>
    obtain ⟨hroot, hsubs⟩ := forall_mem_down.mp hsep
    refine forall_mem_down.mpr ⟨self b, fun s hs p hp => ?_⟩
    exact hroot.owns s hs _ (ih s (mem_children.mp hs) (hsubs s hs) p hp)

/-- Keys that are separated at every node are pairwise distinct in the tree. -/
theorem nodup_keys {key : β → γ} (Owns : β → γ → Prop) (self : ∀ b, Owns b (key b))
    {b : β} {t : RoseTree α} (hsep : ∀ p ∈ down f b t, Separated f key Owns p) :
    ((down f b t).map fun p => key p.1).Nodup := by
  induction t using induct generalizing b with
  | h a subs ih =>
    obtain ⟨hroot, hsubs⟩ := forall_mem_down.mp hsep
    rw [down_eq, List.map_cons, List.nodup_cons, List.map_flatMap]
    constructor
    · intro hmem
      obtain ⟨s, hs, hx⟩ := List.mem_flatMap.mp hmem
      obtain ⟨p, hp, he⟩ := List.mem_map.mp hx
      have hown := owns_of_mem_down self (hsubs s hs) p hp
      exact hroot.proper s hs (he ▸ hown)
    · rw [List.nodup_flatMap]
      refine ⟨fun s hs => ih s (mem_children.mp hs) (hsubs s hs), ?_⟩
      refine hroot.disjoint.imp_of_mem fun {s s'} hs hs' hdis => ?_
      rw [Function.onFun, List.disjoint_left]
      intro x hx hx'
      obtain ⟨p, hp, rfl⟩ := List.mem_map.mp hx
      obtain ⟨p', hp', he⟩ := List.mem_map.mp hx'
      exact hdis _ (owns_of_mem_down self (hsubs s hs) p hp)
        (he ▸ owns_of_mem_down self (hsubs s' hs') p' hp')

/-- Distinct keys in the tree are distinct in every subtree, and among a node and its children. -/
theorem nodup_children {key : β → γ} {b : β} {t : RoseTree α}
    (h : ((down f b t).map fun p => key p.1).Nodup) :
    ∀ p ∈ down f b t, (key p.1 :: p.2.children.map fun s =>
      key (f p.1 p.2.label s.label)).Nodup := by
  induction t using induct generalizing b with
  | h a subs ih =>
    have hsub : ∀ s ∈ (node a subs).children,
        (down f (f b a s.label) s).Sublist (down f b (node a subs)) := by
      intro s hs
      rw [down_eq b (node a subs)]
      obtain ⟨l₁, l₂, hl⟩ := List.append_of_mem hs
      rw [hl, List.flatMap_append, List.flatMap_cons]
      exact ((List.sublist_append_left _ _).trans (List.sublist_append_right _ _)).trans
        (List.sublist_cons_self _ _)
    refine forall_mem_down.mpr ⟨?_, fun s hs => ih s (mem_children.mp hs) ?_⟩
    · refine h.sublist ?_
      rw [down_eq, List.map_cons, List.map_flatMap]
      refine List.Sublist.cons_cons _ ?_
      show List.Sublist (List.map _ (node a subs).children) _
      generalize (node a subs).children = l
      induction l with
      | nil => simp
      | cons s l ihl =>
        rw [List.map_cons, List.flatMap_cons, down_eq, List.map_cons, List.cons_append]
        exact (ihl.trans (List.sublist_append_right _ _)).cons_cons _
    · exact h.sublist ((hsub s hs).map _)

end RoseTree
