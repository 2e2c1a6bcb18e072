import Mathlib.Tactic

/-! Lists that live in pointers. `next` gives the successor of a node; a chain is the list of
nodes that are reached from a first one, and it ends. -/

namespace Chain
variable {α : Type*} {next next' : α → Option α} {h : Option α} {l : List α} {a b x : α}

/-- The nodes of the list, and no others, are reached from `h`. -/
def Linked (next : α → Option α) : Option α → List α → Prop
  | h, [] => h = none
  | h, a :: l => h = some a ∧ Linked next (next a) l

theorem Linked.head (hl : Linked next h l) : h = l.head? := by
  cases l with
  | nil => exact hl
  | cons a l => exact hl.1

theorem Linked.eq_nil (hl : Linked next none l) : l = [] := by
  cases l with
  | nil => rfl
  | cons a l => cases hl.1

/-- A first node has one chain. -/
theorem Linked.unique {l' : List α} (hl : Linked next h l) (hl' : Linked next h l') : l = l' := by
  induction l generalizing h l' with
  | nil =>
    cases l' with
    | nil => rfl
    | cons b l' => cases hl.symm.trans hl'.1
  | cons a l ih =>
    cases l' with
    | nil => cases hl'.symm.trans hl.1
    | cons b l' =>
      obtain rfl : a = b := Option.some.inj (hl.1.symm.trans hl'.1)
      rw [ih hl.2 hl'.2]

theorem Linked.congr (hl : Linked next h l) (hnext : ∀ a ∈ l, next' a = next a) :
    Linked next' h l := by
  induction l generalizing h with
  | nil => exact hl
  | cons a l ih =>
    refine ⟨hl.1, ?_⟩
    rw [hnext a List.mem_cons_self]
    exact ih hl.2 fun b hb => hnext b (List.mem_cons_of_mem a hb)

theorem Linked.suffix {m : List α} (hl : Linked next h (m ++ a :: l)) :
    Linked next (some a) (a :: l) := by
  induction m generalizing h with
  | nil => exact ⟨rfl, hl.2⟩
  | cons b m ih => exact ih hl.2

/-- What remains behind a front part is a chain. -/
theorem Linked.rest {front rest : List α} (hl : Linked next h (front ++ rest)) :
    Linked next rest.head? rest := by
  induction front generalizing h with
  | nil => exact hl.head ▸ hl
  | cons a front ih => exact ih hl.2

/-- The successor of a node in a front part is in the front part or right behind it. -/
theorem Linked.front {front rest : List α} (hl : Linked next h (front ++ rest)) (ha : a ∈ front)
    (hab : next a = some b) : b ∈ front ∨ rest.head? = some b := by
  induction front generalizing h with
  | nil => cases ha
  | cons c front ih =>
    rcases List.mem_cons.mp ha with rfl | ha
    · have hhead : (front ++ rest).head? = some b := hl.2.head.symm.trans hab
      cases front with
      | nil => exact .inr hhead
      | cons d front =>
        obtain rfl := Option.some.inj hhead
        exact .inl (List.mem_cons_of_mem a List.mem_cons_self)
    · exact (ih hl.2 ha).imp_left (List.mem_cons_of_mem c)

/-- A transitive relation that holds along the pointers holds along the chain. -/
theorem Linked.pairwise {r : α → α → Prop} (hl : Linked next h l)
    (hr : ∀ a b, next a = some b → r a b) (htrans : ∀ a b c, r a b → r b c → r a c) :
    l.Pairwise r := by
  have : IsTrans α r := ⟨htrans⟩
  refine List.isChain_iff_pairwise.mp ?_
  induction l generalizing h with
  | nil => exact List.isChain_nil
  | cons a l ih =>
    refine List.isChain_cons.mpr ⟨fun b hb => ?_, ih hl.2⟩
    exact hr a b (hl.2.head.trans hb)

/-- Where a measure gets smaller along the pointers, every chain ends. -/
theorem exists_linked (measure : α → ℕ) (hless : ∀ a b, next a = some b → measure b < measure a)
    (h : Option α) : ∃ l, Linked next h l := by
  cases h with
  | none => exact ⟨[], rfl⟩
  | some a =>
    induction hm : measure a using Nat.strong_induction_on generalizing a with
    | _ n ih =>
      cases hnext : next a with
      | none => exact ⟨[a], rfl, hnext⟩
      | some b =>
        obtain ⟨l, hl⟩ := ih (measure b) (hm ▸ hless a b hnext) b rfl
        exact ⟨a :: l, rfl, hnext ▸ hl⟩

/-- A chain ends, so it does not come back to one of its nodes. -/
theorem Linked.nodup (hl : Linked next h l) : l.Nodup := by
  induction l generalizing h with
  | nil => exact List.nodup_nil
  | cons a l ih =>
    refine List.nodup_cons.mpr ⟨fun ha => ?_, ih hl.2⟩
    obtain ⟨m, l', rfl⟩ := List.append_of_mem ha
    have hsuffix : Linked next (some a) (a :: l') := hl.2.suffix
    have hall : Linked next (some a) (a :: (m ++ a :: l')) := ⟨rfl, hl.2⟩
    have hlen := congrArg List.length (hall.unique hsuffix)
    simp only [List.length_cons, List.length_append] at hlen
    omega

theorem Linked.next_mem (hl : Linked next h l) (ha : a ∈ l) (hb : next a = some b) : b ∈ l := by
  induction l generalizing h with
  | nil => cases ha
  | cons c l ih =>
    rcases List.mem_cons.mp ha with rfl | ha
    · have hhead : next a = l.head? := hl.2.head
      exact List.mem_cons_of_mem a (List.mem_of_mem_head? (hhead.symm.trans hb))
    · exact List.mem_cons_of_mem c (ih hl.2 ha)

/-- Every node is the first one or follows another. -/
theorem Linked.pred (hl : Linked next h l) (ha : a ∈ l) : h = some a ∨ ∃ b ∈ l, next b = some a := by
  induction l generalizing h with
  | nil => cases ha
  | cons c l ih =>
    rcases List.mem_cons.mp ha with rfl | ha
    · exact .inl hl.1
    · rcases ih hl.2 ha with hc | ⟨b, hb, hba⟩
      · exact .inr ⟨c, List.mem_cons_self, hc⟩
      · exact .inr ⟨b, List.mem_cons_of_mem c hb, hba⟩

/-- The first node follows no other. -/
theorem Linked.head_ne (hl : Linked next (some a) l) (hb : b ∈ l) : next b ≠ some a := by
  intro hba
  cases l with
  | nil => cases hl
  | cons c l =>
    obtain rfl : a = c := Option.some.inj hl.1
    have ha : a ∉ l := (List.nodup_cons.mp hl.nodup).1
    rcases List.mem_cons.mp hb with rfl | hb
    · exact ha (List.mem_of_mem_head? (hl.2.head.symm.trans hba))
    · exact ha (hl.2.next_mem hb hba)

/-- No two nodes are followed by the same one. -/
theorem Linked.pred_unique (hl : Linked next h l) (ha : a ∈ l) (hb : b ∈ l)
    (hax : next a = some x) (hbx : next b = some x) : a = b := by
  induction l generalizing h with
  | nil => cases ha
  | cons c l ih =>
    rcases List.mem_cons.mp ha with hac | ha'
    · rcases List.mem_cons.mp hb with hbc | hb'
      · rw [hac, hbc]
      · have hrest : Linked next (some x) l := hax ▸ hac ▸ hl.2
        exact absurd hbx (hrest.head_ne hb')
    · rcases List.mem_cons.mp hb with hbc | hb'
      · have hrest : Linked next (some x) l := hbx ▸ hbc ▸ hl.2
        exact absurd hax (hrest.head_ne ha')
      · exact ih hl.2 ha' hb'

/-- A chain has one end. -/
theorem Linked.end_unique (hl : Linked next h l) (ha : a ∈ l) (hb : b ∈ l)
    (hax : next a = none) (hbx : next b = none) : a = b := by
  induction l generalizing h with
  | nil => cases ha
  | cons c l ih =>
    have hlast : next c = none → l = [] := by
      intro hc
      have hrest : Linked next none l := hc ▸ hl.2
      exact hrest.eq_nil
    rcases List.mem_cons.mp ha with hac | ha'
    · rcases List.mem_cons.mp hb with hbc | hb'
      · rw [hac, hbc]
      · rw [hlast (hac ▸ hax)] at hb'
        cases hb'
    · rcases List.mem_cons.mp hb with hbc | hb'
      · rw [hlast (hbc ▸ hbx)] at ha'
        cases ha'
      · exact ih hl.2 ha' hb'

/-- No node is its own successor. -/
theorem Linked.next_ne_self (hl : Linked next h l) (ha : a ∈ l) : next a ≠ some a := by
  obtain ⟨m, l', rfl⟩ := List.append_of_mem ha
  have hsuffix : Linked next (some a) (a :: l') := hl.suffix
  exact hsuffix.head_ne List.mem_cons_self

/-- The list after a node was put behind its end. -/
theorem Linked.append {h' : Option α} (hl : Linked next h l)
    (hnext : ∀ a ∈ l, next' a = if next a = none then some x else next a) (hx : next' x = none)
    (hh : h' = if h = none then some x else h) : Linked next' h' (l ++ [x]) := by
  induction l generalizing h h' with
  | nil =>
    obtain rfl : h = none := hl
    exact ⟨hh, hx⟩
  | cons a l ih =>
    obtain rfl : h = some a := hl.1
    refine ⟨hh, ?_⟩
    have hrest : ∀ b ∈ l, next' b = if next b = none then some x else next b :=
      fun b hb => hnext b (List.mem_cons_of_mem a hb)
    exact ih hl.2 hrest (hnext a List.mem_cons_self)

/-- The list after a node was put behind another one. -/
theorem Linked.insertAfter {front back : List α} (hl : Linked next h (front ++ a :: back))
    (hnext : ∀ c ∈ front ++ back, next' c = next c) (ha : next' a = some x)
    (hx : next' x = next a) : Linked next' h (front ++ a :: x :: back) := by
  induction front generalizing h with
  | nil => exact ⟨hl.1, ha, hx ▸ hl.2.congr hnext⟩
  | cons c front ih =>
    refine ⟨hl.1, ?_⟩
    rw [hnext c List.mem_cons_self]
    exact ih hl.2 fun d hd => hnext d (List.mem_cons_of_mem c hd)

/-- The node before one that is not the first. -/
theorem exists_before (hx : x ∈ l) (hne : l.head? ≠ some x) :
    ∃ front c back, l = front ++ c :: x :: back := by
  obtain ⟨front, back, rfl⟩ := List.append_of_mem hx
  cases front using List.reverseRecOn with
  | nil => exact absurd rfl hne
  | append_singleton front c => exact ⟨front, c, back, by simp⟩

theorem Linked.next_of_append {front back : List α} (hl : Linked next h (front ++ a :: back)) :
    next a = back.head? := hl.suffix.2.head

/-- Each node points back to the one before it, and the first one to `b`. -/
def Backed (prev : α → Option α) : Option α → List α → Prop
  | _, [] => True
  | b, a :: l => prev a = b ∧ Backed prev (some a) l

theorem Backed.congr {prev prev' : α → Option α} {b : Option α} (hb : Backed prev b l)
    (h : ∀ a ∈ l, prev' a = prev a) : Backed prev' b l := by
  induction l generalizing b with
  | nil => trivial
  | cons a l ih =>
    exact ⟨(h a List.mem_cons_self).trans hb.1,
      ih hb.2 fun c hc => h c (List.mem_cons_of_mem a hc)⟩

/-- Pointers that invert those of a chain point back along it. -/
theorem Linked.backed {prev : α → Option α} (hl : Linked next h l)
    (hinv : ∀ a b, next a = some b → prev b = some a) {b : Option α}
    (hfirst : ∀ a, h = some a → prev a = b) : Backed prev b l := by
  induction l generalizing h b with
  | nil => trivial
  | cons a l ih => exact ⟨hfirst a hl.1, ih hl.2 fun c hc => hinv a c hc⟩

theorem Backed.ne_none {prev : α → Option α} {c : α} (hb : Backed prev (some c) l) (ha : a ∈ l) :
    prev a ≠ none := by
  induction l generalizing c with
  | nil => cases ha
  | cons e l ih =>
    rcases List.mem_cons.mp ha with rfl | ha
    · simp [hb.1]
    · exact ih hb.2 ha

/-- Only the first node may point back to nothing. -/
theorem Backed.head_of_none {prev : α → Option α} {b : Option α} (hb : Backed prev b l)
    (ha : a ∈ l) (hnone : prev a = none) : l.head? = some a := by
  cases l with
  | nil => cases ha
  | cons c l =>
    rcases List.mem_cons.mp ha with rfl | ha
    · rfl
    · exact absurd hnone (hb.2.ne_none ha)

/-- What a node in a front part, or the first one behind it, points back to is in the front part. -/
theorem Backed.front {prev : α → Option α} {b : Option α} {front rest : List α}
    (hb : Backed prev b (front ++ rest)) (ha : a ∈ front ∨ rest.head? = some a) :
    prev a = b ∨ ∃ c ∈ front, prev a = some c := by
  induction front generalizing b with
  | nil =>
    cases rest with
    | nil => simp at ha
    | cons c rest =>
      obtain rfl : c = a := by simpa using ha
      exact .inl hb.1
  | cons c front ih =>
    by_cases hca : a = c
    · subst hca
      exact .inl hb.1
    · have ha' : a ∈ front ∨ rest.head? = some a := by simpa [hca] using ha
      rcases ih hb.2 ha' with hc | ⟨e, he, hback⟩
      · exact .inr ⟨c, List.mem_cons_self, hc⟩
      · exact .inr ⟨e, List.mem_cons_of_mem c he, hback⟩

/-- The part behind some nodes, once its first node points back to nothing. -/
theorem Backed.behind {prev prev' : α → Option α} {b : Option α} {front rest : List α}
    (hb : Backed prev b (front ++ rest)) (hfirst : ∀ a, rest.head? = some a → prev' a = none)
    (hrest : ∀ a ∈ rest.tail, prev' a = prev a) : Backed prev' none rest := by
  induction front generalizing b with
  | nil =>
    cases rest with
    | nil => trivial
    | cons a rest => exact ⟨hfirst a rfl, Backed.congr hb.2 hrest⟩
  | cons c front ih => exact ih hb.2

variable [DecidableEq α]

/-- A pointer that is left after one was nulled. -/
theorem update_none_some {β : Type*} {f : α → Option β} {z : β}
    (hz : Function.update f x none a = some z) : a ≠ x ∧ f a = some z := by
  by_cases hax : a = x
  · subst hax
    rw [Function.update_self] at hz
    cases hz
  · rw [Function.update_of_ne hax] at hz
    exact ⟨hax, hz⟩

/-- The list after a node was taken out of it: its predecessor points to its successor. -/
theorem Linked.erase {h' : Option α} (hl : Linked next h l)
    (hnext : ∀ a ∈ l, a ≠ x → next' a = if next a = some x then next x else next a)
    (hh : h' = if h = some x then next x else h) : Linked next' h' (l.erase x) := by
  induction l generalizing h h' with
  | nil =>
    obtain rfl : h = none := hl
    exact hh
  | cons a l ih =>
    obtain rfl : h = some a := hl.1
    by_cases hax : a = x
    · subst hax
      rw [List.erase_cons_head, hh, if_pos rfl]
      have ha : a ∉ l := (List.nodup_cons.mp hl.nodup).1
      apply hl.2.congr
      intro b hb
      have hba : b ≠ a := fun h => ha (h ▸ hb)
      rw [hnext b (List.mem_cons_of_mem a hb) hba, if_neg (hl.head_ne (List.mem_cons_of_mem a hb))]
    · rw [List.erase_cons_tail (by simpa using hax)]
      rw [if_neg (fun h => hax (Option.some.inj h))] at hh
      refine ⟨hh, ?_⟩
      have hrest : ∀ b ∈ l, b ≠ x → next' b = if next b = some x then next x else next b :=
        fun b hb => hnext b (List.mem_cons_of_mem a hb)
      exact ih hl.2 hrest (hnext a List.mem_cons_self hax)

end Chain
