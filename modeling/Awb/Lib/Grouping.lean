import Mathlib.Tactic

/-! Rows of elements that are collected by their keys: an element goes behind the others of its key,
and the first one of a key begins a row. -/

namespace Grouping
variable {κ α : Type*} [DecidableEq κ]

def add (key : κ) (a : α) : List (κ × List α) → List (κ × List α)
  | [] => [(key, [a])]
  | row :: rows => if row.1 = key then (row.1, row.2 ++ [a]) :: rows else row :: add key a rows

/-- There is one row for each key, with the elements of that key in their order. -/
structure Groups (rows : List (κ × List α)) (l : List (κ × α)) : Prop where
  nodup : (rows.map Prod.fst).Nodup
  elements : ∀ row ∈ rows, row.2 = (l.filter fun p => p.1 = row.1).map Prod.snd
  keys : ∀ p ∈ l, p.1 ∈ rows.map Prod.fst
  perm : (rows.flatMap Prod.snd).Perm (l.map Prod.snd)

variable {rows : List (κ × List α)} {l : List (κ × α)} {key : κ} {a : α}

theorem keys_add_of_mem (h : key ∈ rows.map Prod.fst) :
    (add key a rows).map Prod.fst = rows.map Prod.fst := by
  induction rows with
  | nil => cases h
  | cons row rows ih =>
    rw [add]
    split
    · rfl
    next hrow =>
      rw [List.map_cons, List.mem_cons] at h
      rw [List.map_cons, List.map_cons, ih (h.resolve_left (Ne.symm hrow))]

/-- The first element of a key. -/
theorem add_of_not_mem (h : key ∉ rows.map Prod.fst) :
    add key a rows = rows ++ [(key, [a])] := by
  induction rows with
  | nil => rfl
  | cons row rows ih =>
    rw [List.map_cons, List.mem_cons, not_or] at h
    rw [add, if_neg (Ne.symm h.1), ih h.2, List.cons_append]

/-- The row of the key is known by its index; rows may be kept in records of another type. -/
theorem map_modify {β : Type*} {row : β → κ × List α} {put : β → β} {bs : List β} {b : β} {i : ℕ}
    (hput : ∀ b, row (put b) = ((row b).1, (row b).2 ++ [a]))
    (hnodup : ((bs.map row).map Prod.fst).Nodup) (hi : bs[i]? = some b) (hb : (row b).1 = key) :
    (bs.modify i put).map row = add key a (bs.map row) := by
  induction bs generalizing i with
  | nil => cases hi
  | cons first bs ih =>
    obtain ⟨hfirst, hnodup⟩ := List.nodup_cons.mp hnodup
    cases i with
    | zero =>
      obtain rfl : first = b := Option.some.inj hi
      rw [List.modify_zero_cons, List.map_cons, List.map_cons, add, if_pos hb, hput]
    | succ i =>
      have hmem : b ∈ bs := List.mem_of_getElem? hi
      have hne : (row first).1 ≠ key := fun heq => hfirst <| by
        rw [heq, ← hb]
        exact List.mem_map_of_mem (List.mem_map_of_mem hmem)
      rw [List.modify_succ_cons, List.map_cons, List.map_cons, add, if_neg hne, ih hnodup hi]

theorem perm_add : ((add key a rows).flatMap Prod.snd).Perm (rows.flatMap Prod.snd ++ [a]) := by
  induction rows with
  | nil => exact List.Perm.refl _
  | cons row rows ih =>
    rw [add]
    split
    · rw [List.flatMap_cons, List.flatMap_cons, List.append_assoc, List.append_assoc]
      exact List.Perm.append_left _ List.perm_append_comm
    · rw [List.flatMap_cons, List.flatMap_cons, List.append_assoc]
      exact List.Perm.append_left _ ih

/-- The rows afterwards: that of the key is one longer, or new. -/
theorem of_mem_add (hnodup : (rows.map Prod.fst).Nodup) {row : κ × List α}
    (h : row ∈ add key a rows) :
    row ∈ rows ∧ row.1 ≠ key ∨
      row.1 = key ∧ ∃ front, row.2 = front ++ [a] ∧
        ((key, front) ∈ rows ∨ key ∉ rows.map Prod.fst ∧ front = []) := by
  induction rows with
  | nil =>
    rw [add, List.mem_singleton] at h
    subst h
    exact .inr ⟨rfl, [], rfl, .inr ⟨List.not_mem_nil, rfl⟩⟩
  | cons first rows ih =>
    obtain ⟨hfirst, hnodup⟩ := List.nodup_cons.mp hnodup
    rw [add] at h
    split at h
    next hkey =>
      rcases List.mem_cons.mp h with rfl | h
      · exact .inr ⟨hkey, first.2, rfl, .inl (hkey ▸ List.mem_cons_self)⟩
      · refine .inl ⟨List.mem_cons_of_mem _ h, fun heq => hfirst ?_⟩
        rw [hkey, ← heq]
        exact List.mem_map_of_mem h
    next hkey =>
      rcases List.mem_cons.mp h with rfl | h
      · exact .inl ⟨List.mem_cons_self, hkey⟩
      · rcases ih hnodup h with ⟨hmem, hne⟩ | ⟨heq, front, hfront, hold⟩
        · exact .inl ⟨List.mem_cons_of_mem _ hmem, hne⟩
        · refine .inr ⟨heq, front, hfront, hold.imp (List.mem_cons_of_mem _) fun hnew => ?_⟩
          rw [List.map_cons, List.mem_cons, not_or]
          exact ⟨⟨Ne.symm hkey, hnew.1⟩, hnew.2⟩

namespace Groups

theorem nil : Groups ([] : List (κ × List α)) [] where
  nodup := .nil
  elements := fun _ h => (by cases h)
  keys := fun _ h => (by cases h)
  perm := .refl _

theorem add (h : Groups rows l) (key : κ) (a : α) :
    Groups (add key a rows) (l ++ [(key, a)]) where
  nodup := by
    by_cases hkey : key ∈ rows.map Prod.fst
    · rw [keys_add_of_mem hkey]
      exact h.nodup
    · rw [add_of_not_mem hkey, List.map_append]
      exact List.nodup_append.mpr ⟨h.nodup, List.nodup_singleton _, fun k hk k' hk' heq =>
        hkey (by rwa [heq, List.mem_singleton.mp hk'] at hk)⟩
  elements row hrow := by
    rw [List.filter_append, List.map_append]
    rcases of_mem_add h.nodup hrow with ⟨hmem, hne⟩ | ⟨heq, front, hfront, hold⟩
    · simp [← h.elements row hmem, Ne.symm hne]
    · have hfilter : (l.filter fun p => p.1 = row.1).map Prod.snd = front := by
        rw [heq]
        rcases hold with hmem | ⟨hnew, rfl⟩
        · exact (h.elements _ hmem).symm
        · rw [List.map_eq_nil_iff, List.filter_eq_nil_iff]
          intro p hp hpkey
          exact hnew (of_decide_eq_true hpkey ▸ h.keys p hp)
      rw [hfilter, hfront]
      simp [heq]
  keys p hp := by
    have hmem : p.1 ∈ rows.map Prod.fst ∨ p.1 = key := by
      rcases List.mem_append.mp hp with hp | hp
      · exact .inl (h.keys p hp)
      · exact .inr (congrArg Prod.fst (List.mem_singleton.mp hp))
    by_cases hkey : key ∈ rows.map Prod.fst
    · rw [keys_add_of_mem hkey]
      exact hmem.elim id fun heq => heq ▸ hkey
    · rw [add_of_not_mem hkey, List.map_append, List.mem_append, List.map_singleton,
        List.mem_singleton]
      exact hmem
  perm := perm_add.trans (by
    rw [List.map_append]
    exact h.perm.append_right _)

/-- The row of a key. -/
theorem existsUnique (h : Groups rows l) {p : κ × α} (hp : p ∈ l) :
    ∃! row, row ∈ rows ∧ row.1 = p.1 := by
  obtain ⟨row, hrow, heq⟩ := List.mem_map.mp (h.keys p hp)
  refine ⟨row, ⟨hrow, heq⟩, fun row' hrow' => ?_⟩
  exact List.inj_on_of_nodup_map h.nodup hrow'.1 hrow (hrow'.2.trans heq.symm)

/-- The elements of the rows that a predicate on keys selects, if it selects one key. -/
theorem flatMap_filter (h : Groups rows l) (key : κ) :
    (rows.filter fun row => row.1 = key).flatMap Prod.snd =
      (l.filter fun p => p.1 = key).map Prod.snd := by
  by_cases hkey : key ∈ rows.map Prod.fst
  · obtain ⟨row, hrow, rfl⟩ := List.mem_map.mp hkey
    have hfilter : (rows.filter fun row' => row'.1 = row.1) = [row] := by
      have hnodup := h.nodup
      clear h hkey
      induction rows with
      | nil => cases hrow
      | cons first rows ih =>
        obtain ⟨hfirst, hnodup⟩ := List.nodup_cons.mp hnodup
        rcases List.mem_cons.mp hrow with rfl | hrow
        · rw [List.filter_cons_of_pos (by simp), List.filter_eq_nil_iff.mpr]
          intro row' hrow' heq
          exact hfirst (of_decide_eq_true heq ▸ List.mem_map_of_mem hrow')
        · have hne : first.1 ≠ row.1 := fun heq => hfirst (heq ▸ List.mem_map_of_mem hrow)
          rw [List.filter_cons_of_neg (by simp [hne]), ih hrow hnodup]
    rw [hfilter, List.flatMap_singleton]
    exact h.elements row hrow
  · have hnone : (rows.filter fun row => row.1 = key) = [] := by
      rw [List.filter_eq_nil_iff]
      intro row hrow heq
      exact hkey (of_decide_eq_true heq ▸ List.mem_map_of_mem hrow)
    have hl : (l.filter fun p => p.1 = key) = [] := by
      rw [List.filter_eq_nil_iff]
      intro p hp heq
      exact hkey (of_decide_eq_true heq ▸ h.keys p hp)
    rw [hnone, hl]
    rfl

end Groups

end Grouping
