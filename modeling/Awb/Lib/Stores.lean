import Mathlib.Tactic

/-! Stores that are read and written at keys, and lists of writes carried out in order. -/

/-- How a state is read and written at a key: a write changes what is read at its own key. -/
structure Store (σ κ α : Type*) [DecidableEq κ] where
  read : σ → κ → Option α
  put : σ → κ → α → σ
  read_put : ∀ s k v k', read (put s k v) k' = if k' = k then some v else read s k'

namespace Store
variable {σ κ α : Type*} [DecidableEq κ] (st : Store σ κ α) {s : σ} {ws : List (κ × α)} {k : κ}
  {v : α}

def putAll (s : σ) (ws : List (κ × α)) : σ := ws.foldl (fun s w => st.put s w.1 w.2) s

@[simp] theorem putAll_nil : st.putAll s [] = s := rfl

@[simp] theorem putAll_cons (w : κ × α) :
    st.putAll s (w :: ws) = st.putAll (st.put s w.1 w.2) ws := rfl

theorem putAll_append (ws' : List (κ × α)) :
    st.putAll s (ws ++ ws') = st.putAll (st.putAll s ws) ws' := by
  rw [putAll, List.foldl_append]
  rfl

theorem read_put_self : st.read (st.put s k v) k = some v := by
  rw [st.read_put, if_pos rfl]

theorem read_put_of_ne {k' : κ} (h : k' ≠ k) : st.read (st.put s k v) k' = st.read s k' := by
  rw [st.read_put, if_neg h]

/-- A value stays as long as the later writes to its key write the same. -/
theorem read_putAll_of_agree (hs : st.read s k = some v) (h : ∀ w ∈ ws, w.1 = k → w.2 = v) :
    st.read (st.putAll s ws) k = some v := by
  induction ws generalizing s with
  | nil => exact hs
  | cons w ws ih =>
    have hput : st.read (st.put s w.1 w.2) k = some v := by
      rw [st.read_put]
      split
      next heq => rw [h w (List.mem_cons_self ..) heq.symm]
      next => exact hs
    exact ih hput fun w' hw' => h w' (List.mem_cons_of_mem w hw')

/-- What is written is read, if nothing else is written to its key. -/
theorem read_putAll_of_mem (hmem : (k, v) ∈ ws) (h : ∀ w ∈ ws, w.1 = k → w.2 = v) :
    st.read (st.putAll s ws) k = some v := by
  induction ws generalizing s with
  | nil => simp at hmem
  | cons w ws ih =>
    have hrest : ∀ w' ∈ ws, w'.1 = k → w'.2 = v := fun w' hw' => h w' (List.mem_cons_of_mem w hw')
    rcases List.mem_cons.mp hmem with rfl | hmem
    · rw [putAll_cons]
      exact st.read_putAll_of_agree st.read_put_self hrest
    · exact ih hmem hrest

/-- Everything that is read was there before or is among the writes. -/
theorem mem_of_read_putAll (h : st.read (st.putAll s ws) k = some v) :
    st.read s k = some v ∨ (k, v) ∈ ws := by
  induction ws generalizing s with
  | nil => exact Or.inl h
  | cons w ws ih =>
    rcases ih h with hput | hmem
    · rw [st.read_put] at hput
      split at hput
      next heq =>
        obtain rfl := Option.some.inj hput
        exact Or.inr (heq ▸ List.mem_cons_self ..)
      next => exact Or.inl hput
    · exact Or.inr (List.mem_cons_of_mem w hmem)

end Store

/-- How an entry of a state is overwritten with another one. -/
structure Copier (σ κ β : Type*) [DecidableEq κ] where
  read : σ → κ → β
  copy : σ → κ → κ → σ
  read_copy : ∀ s source target k,
    read (copy s source target) k = if k = target then read s source else read s k

namespace Copier
variable {σ κ β : Type*} [DecidableEq κ] (c : Copier σ κ β) (source : κ → κ)

/-- Each entry is overwritten with its source, one after the other. -/
def copyAll (s : σ) (targets : List κ) : σ :=
  targets.foldl (fun s target => c.copy s (source target) target) s

/-- If a source that is overwritten is its own source, then all entries get what their sources were
at the beginning. -/
theorem read_copyAll {targets : List κ}
    (h : ∀ k ∈ targets, source k ∈ targets → source (source k) = source k) (s : σ) (k : κ) :
    c.read (c.copyAll source s targets) k =
      if k ∈ targets then c.read s (source k) else c.read s k := by
  induction targets generalizing s with
  | nil => rfl
  | cons target targets ih =>
    have hrest : ∀ k ∈ targets, source k ∈ targets → source (source k) = source k :=
      fun k hk hsource => h k (List.mem_cons_of_mem target hk) (List.mem_cons_of_mem target hsource)
    have hstep : c.copyAll source s (target :: targets) =
        c.copyAll source (c.copy s (source target) target) targets := rfl
    rw [hstep, ih hrest, c.read_copy, c.read_copy]
    by_cases hk : k ∈ targets
    · rw [if_pos hk, if_pos (List.mem_cons_of_mem target hk)]
      split_ifs with htarget
      · have hmem : source k ∈ target :: targets := htarget ▸ List.mem_cons_self
        rw [← h k (List.mem_cons_of_mem target hk) hmem, htarget]
      · rfl
    · rw [if_neg hk]
      by_cases htarget : k = target
      · rw [if_pos htarget, if_pos (htarget ▸ List.mem_cons_self), htarget]
      · rw [if_neg htarget, if_neg (fun hmem => (List.mem_cons.mp hmem).elim htarget hk)]

end Copier
