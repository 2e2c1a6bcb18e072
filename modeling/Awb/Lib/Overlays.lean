import Mathlib.Tactic

/-! Partial writes to a state, and logs of them that are replayed in order: of the writes to one
place, the last one stays. -/

namespace Overlay
variable {κ α : Type*} {w : κ → Option α} {ws post : List (κ → Option α)} {s : κ → α} {k : κ}
  {v : α}

/-- The state after a partial write. -/
def write (w : κ → Option α) (s : κ → α) : κ → α := fun k => (w k).getD (s k)

def writeAll (ws : List (κ → Option α)) (s : κ → α) : κ → α := ws.foldl (fun s w => write w s) s

theorem write_of_none (h : w k = none) : write w s k = s k := by
  rw [write, h, Option.getD_none]

theorem write_of_some (h : w k = some v) : write w s k = v := by
  rw [write, h, Option.getD_some]

/-- A place that no write of the log touches keeps its value. -/
theorem writeAll_of_none (h : ∀ w ∈ ws, w k = none) : writeAll ws s k = s k := by
  induction ws generalizing s with
  | nil => rfl
  | cons w ws ih =>
    have hrest : ∀ w ∈ ws, w k = none := fun w' hw' => h w' (List.mem_cons_of_mem w hw')
    exact (ih hrest).trans (write_of_none (h w List.mem_cons_self))

/-- A value that the later writes agree with stays. -/
theorem writeAll_of_agree (hs : s k = v) (h : ∀ w ∈ ws, w k = none ∨ w k = some v) :
    writeAll ws s k = v := by
  induction ws generalizing s with
  | nil => exact hs
  | cons w ws ih =>
    have hw : write w s k = v := by
      rcases h w List.mem_cons_self with hnone | hsome
      · exact (write_of_none hnone).trans hs
      · exact write_of_some hsome
    exact ih hw fun w' hw' => h w' (List.mem_cons_of_mem w hw')

/-- The last write to a place determines its value. -/
theorem writeAll_of_last {pre : List (κ → Option α)} (hw : w k = some v)
    (h : ∀ w' ∈ post, w' k = none ∨ w' k = some v) :
    writeAll (pre ++ w :: post) s k = v := by
  rw [writeAll, List.foldl_append, List.foldl_cons]
  exact writeAll_of_agree (write_of_some hw) h

end Overlay
