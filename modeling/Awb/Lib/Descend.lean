import Mathlib.Logic.Relation
import Mathlib.Tactic

/-! Everything below a node of a graph, collected by recursion. There is no test for cycles, so the
recursion gets fuel; it ends exactly if no endless path leaves the node. -/

namespace Descend
variable {α : Type*} [DecidableEq α]

/-- An element is put at the end of a list that does not have it. -/
def addNew (l : List α) (a : α) : List α := if l.contains a then l else l ++ [a]

@[simp] theorem mem_addNew {l : List α} {a b : α} : b ∈ addNew l a ↔ b ∈ l ∨ b = a := by
  unfold addNew
  split_ifs with h
  · exact ⟨Or.inl, fun hb => hb.elim id fun hba => hba ▸ List.contains_iff_mem.mp h⟩
  · simp

@[simp] theorem mem_foldl_addNew {l k : List α} {b : α} :
    b ∈ k.foldl addNew l ↔ b ∈ l ∨ b ∈ k := by
  induction k generalizing l with
  | nil => simp
  | cons a k ih => rw [List.foldl_cons, ih, mem_addNew, List.mem_cons, or_assoc]

variable {next : α → List α} {a b c : α} {fuel : Nat} {found : List α}

/-- The nodes below a node: each successor, followed by the nodes below it. -/
def descend (next : α → List α) : Nat → α → Option (List α)
  | 0, _ => none
  | fuel + 1, a => (next a).foldlM (fun found b =>
      (descend next fuel b).map fun deeper => deeper.foldl addNew (addNew found b)) []

/-- What the loop over the successors of a node finds. -/
theorem mem_foldlM {below : α → Option (List α)} {successors start : List α}
    (h : successors.foldlM (fun found b =>
      (below b).map fun deeper => deeper.foldl addNew (addNew found b)) start = some found) :
    c ∈ found ↔
      c ∈ start ∨ ∃ b ∈ successors, c = b ∨ ∃ deeper, below b = some deeper ∧ c ∈ deeper := by
  induction successors generalizing start with
  | nil =>
    cases h
    simp
  | cons b successors ih =>
    obtain ⟨m, hm, hrest⟩ := Option.bind_eq_some_iff.mp ((List.foldlM_cons ..).symm.trans h)
    obtain ⟨deeper, hdeeper, rfl⟩ := Option.map_eq_some_iff.mp hm
    have hhere : (∃ d, below b = some d ∧ c ∈ d) ↔ c ∈ deeper := by
      rw [hdeeper]
      exact ⟨fun ⟨_, hd, hc⟩ => Option.some.inj hd ▸ hc, fun hc => ⟨deeper, rfl, hc⟩⟩
    rw [ih hrest, mem_foldl_addNew, mem_addNew, List.exists_mem_cons_iff, hhere]
    simp only [or_assoc]

theorem isSome_foldlM {below : α → Option (List α)} {successors start : List α} :
    (successors.foldlM (fun found b =>
      (below b).map fun deeper => deeper.foldl addNew (addNew found b)) start).isSome ↔
      ∀ b ∈ successors, (below b).isSome := by
  induction successors generalizing start with
  | nil => simp
  | cons b successors ih =>
    rw [List.foldlM_cons, List.forall_mem_cons]
    cases hb : below b with
    | none => simp
    | some deeper => simpa using ih

theorem isSome_descend_succ :
    (descend next (fuel + 1) a).isSome ↔ ∀ b ∈ next a, (descend next fuel b).isSome :=
  isSome_foldlM

/-- What is collected can be reached, and conversely. -/
theorem mem_descend (h : descend next fuel a = some found) :
    c ∈ found ↔ Relation.TransGen (fun a b => b ∈ next a) a c := by
  induction fuel generalizing a found with
  | zero => cases h
  | succ fuel ih =>
    have hsome : ∀ b ∈ next a, (descend next fuel b).isSome :=
      isSome_descend_succ.mp (Option.isSome_iff_exists.mpr ⟨found, h⟩)
    rw [mem_foldlM h, or_iff_right List.not_mem_nil, Relation.TransGen.head'_iff]
    refine exists_congr fun b => and_congr_right fun hb => ?_
    obtain ⟨deeper, hdeeper⟩ := Option.isSome_iff_exists.mp (hsome b hb)
    rw [Relation.reflTransGen_iff_eq_or_transGen, ← ih hdeeper]
    refine or_congr Iff.rfl ⟨fun ⟨d, hd, hc⟩ => ?_, fun hc => ⟨deeper, hdeeper, hc⟩⟩
    exact Option.some.inj (hdeeper.symm.trans hd) ▸ hc

theorem isSome_descend_of_le {more : Nat} (hle : fuel ≤ more) (h : (descend next fuel a).isSome) :
    (descend next more a).isSome := by
  induction fuel generalizing a more with
  | zero => cases h
  | succ fuel ih =>
    obtain ⟨more, rfl⟩ := Nat.exists_eq_succ_of_ne_zero (Nat.ne_of_gt (Nat.lt_of_lt_of_le
      (Nat.succ_pos fuel) hle))
    exact isSome_descend_succ.mpr fun b hb =>
      ih (Nat.le_of_succ_le_succ hle) (isSome_descend_succ.mp h b hb)

/-- One amount of fuel is enough for finitely many nodes. -/
theorem exists_fuel {nodes : List α} (h : ∀ b ∈ nodes, ∃ fuel, (descend next fuel b).isSome) :
    ∃ fuel, ∀ b ∈ nodes, (descend next fuel b).isSome := by
  induction nodes with
  | nil => exact ⟨0, fun _ hb => absurd hb List.not_mem_nil⟩
  | cons a nodes ih =>
    obtain ⟨⟨here, hhere⟩, hrest⟩ := List.forall_mem_cons.mp h
    obtain ⟨rest, hrest⟩ := ih hrest
    refine ⟨max here rest, List.forall_mem_cons.mpr ⟨?_, fun b hb => ?_⟩⟩
    · exact isSome_descend_of_le (le_max_left ..) hhere
    · exact isSome_descend_of_le (le_max_right ..) (hrest b hb)

/-- The recursion ends exactly if no endless path leaves the node. -/
theorem exists_descend_iff :
    (∃ fuel, (descend next fuel a).isSome) ↔ Acc (fun b a => b ∈ next a) a := by
  constructor
  · rintro ⟨fuel, h⟩
    induction fuel generalizing a with
    | zero => cases h
    | succ fuel ih => exact Acc.intro a fun b hb => ih (isSome_descend_succ.mp h b hb)
  · intro h
    induction h with
    | intro a _ ih =>
      obtain ⟨fuel, hfuel⟩ := exists_fuel ih
      exact ⟨fuel + 1, isSome_descend_succ.mpr hfuel⟩

end Descend
