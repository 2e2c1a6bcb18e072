import Mathlib.Data.List.Sort
import Mathlib.Tactic

/-! Insertion behind the entries of the same key. A list kept in order by it is sorted by key,
and its entries of one key stand in the order of a stamp that grows with every insertion. -/

namespace StableInsert
variable {α κ : Type*} [LinearOrder κ]

/-- Insert before the first entry with a greater key. -/
def insert (key : α → κ) (a : α) (l : List α) : List α :=
  l.orderedInsert (fun x y => key x < key y) a

theorem perm_insert (key : α → κ) (a : α) (l : List α) : (insert key a l).Perm (a :: l) :=
  List.perm_orderedInsert _ _ _

@[simp] theorem mem_insert (key : α → κ) (a b : α) (l : List α) :
    b ∈ insert key a l ↔ b = a ∨ b ∈ l := by
  rw [(perm_insert key a l).mem_iff, List.mem_cons]

@[simp] theorem insert_nil (key : α → κ) (a : α) : insert key a [] = [a] := rfl

theorem insert_cons (key : α → κ) (a b : α) (l : List α) : insert key a (b :: l) =
    if key a < key b then a :: b :: l else b :: insert key a l := rfl

/-- The lexicographic order of an entry's key and its stamp. -/
def Before (key : α → κ) (stamp : α → ℕ) (a b : α) : Prop :=
  key a < key b ∨ key a = key b ∧ stamp a < stamp b

theorem Before.key_le {key : α → κ} {stamp : α → ℕ} {a b : α} (h : Before key stamp a b) :
    key a ≤ key b := h.elim le_of_lt fun h => h.1.le

/-- Inserting an entry with the greatest stamp keeps the order of key and stamp. -/
theorem insert_pairwise {key : α → κ} {stamp : α → ℕ} {a : α} {l : List α}
    (hl : l.Pairwise (Before key stamp)) (hnew : ∀ b ∈ l, stamp b < stamp a) :
    (insert key a l).Pairwise (Before key stamp) := by
  induction l with
  | nil => simp
  | cons b l ih =>
    obtain ⟨hb, hl'⟩ := List.pairwise_cons.mp hl
    rw [insert_cons]
    split_ifs with hab
    · refine List.pairwise_cons.mpr ⟨fun c hc => ?_, hl⟩
      rcases List.mem_cons.mp hc with rfl | hc
      · exact .inl hab
      · exact .inl (hab.trans_le (hb c hc).key_le)
    · refine List.pairwise_cons.mpr ⟨fun c hc => ?_, ih hl' fun c hc => hnew c (.tail _ hc)⟩
      rcases (mem_insert _ _ _ _).mp hc with rfl | hc
      · rcases lt_or_eq_of_le (not_lt.mp hab) with h | h
        · exact .inl h
        · exact .inr ⟨h, hnew b (List.mem_cons_self ..)⟩
      · exact hb c hc

/-- An entry goes between those with no greater key and those with a greater one. -/
theorem insert_eq_append {key : α → κ} {l : List α} (hl : l.Pairwise fun b c => key b ≤ key c)
    (a : α) : ∃ before after, l = before ++ after ∧ insert key a l = before ++ a :: after ∧
      (∀ b ∈ before, key b ≤ key a) ∧ ∀ b ∈ after, key a < key b := by
  induction l with
  | nil => exact ⟨[], [], rfl, rfl, by simp, by simp⟩
  | cons b l ih =>
    obtain ⟨hle, hl'⟩ := List.pairwise_cons.mp hl
    rw [insert_cons]
    split_ifs with hlt
    · refine ⟨[], b :: l, rfl, rfl, by simp, List.forall_mem_cons.mpr ⟨hlt, fun c hc => ?_⟩⟩
      exact hlt.trans_le (hle c hc)
    · obtain ⟨before, after, rfl, hinsert, hbefore, hafter⟩ := ih hl'
      refine ⟨b :: before, after, rfl, by rw [hinsert]; rfl, ?_, hafter⟩
      exact List.forall_mem_cons.mpr ⟨not_lt.mp hlt, hbefore⟩

/-- Inserting keeps the order of the keys. -/
theorem pairwise_insert {key : α → κ} {l : List α} (hl : l.Pairwise fun b c => key b ≤ key c)
    (a : α) : (insert key a l).Pairwise fun b c => key b ≤ key c := by
  obtain ⟨before, after, rfl, hinsert, hbefore, hafter⟩ := insert_eq_append hl a
  obtain ⟨hpairs, hpairs', hle⟩ := List.pairwise_append.mp hl
  rw [hinsert]
  refine List.pairwise_append.mpr ⟨hpairs, ?_, fun b hb => ?_⟩
  · exact List.pairwise_cons.mpr ⟨fun c hc => (hafter c hc).le, hpairs'⟩
  · exact List.forall_mem_cons.mpr ⟨hbefore b hb, hle b hb⟩

/-- Inserting an entry that a filter drops does not show behind it. -/
theorem filter_insert_of_neg {key : α → κ} {p : α → Bool} {a : α} (h : p a = false) (l : List α) :
    (insert key a l).filter p = l.filter p := by
  induction l with
  | nil => simp [h]
  | cons b l ih =>
    rw [insert_cons]
    split_ifs
    · rw [List.filter_cons_of_neg (by simp [h])]
    · simp only [List.filter_cons, ih]

/-- Of the entries that pass a filter, one whose key none of them exceeds is inserted last. -/
theorem filter_insert_of_le {key : α → κ} {p : α → Bool} {a : α} {l : List α} (h : p a = true)
    (hl : l.Pairwise fun b c => key b ≤ key c) (hle : ∀ b ∈ l, p b = true → key b ≤ key a) :
    (insert key a l).filter p = l.filter p ++ [a] := by
  induction l with
  | nil => simp [h]
  | cons b l ih =>
    obtain ⟨hb, hl'⟩ := List.pairwise_cons.mp hl
    rw [insert_cons]
    split_ifs with hab
    · -- everything from here on has a greater key, so nothing of it passes
      have hnone : (b :: l).filter p = [] := by
        apply List.filter_eq_nil_iff.mpr
        intro c hc hpc
        have hbc : key b ≤ key c := by
          rcases List.mem_cons.mp hc with rfl | hc
          · exact le_rfl
          · exact hb c hc
        exact absurd (hle c hc hpc) (not_le.mpr (hab.trans_le hbc))
      rw [List.filter_cons_of_pos h, hnone]
      rfl
    · have hrest := ih hl' fun c hc => hle c (List.mem_cons_of_mem b hc)
      simp only [List.filter_cons, hrest]
      split_ifs <;> rfl

end StableInsert
