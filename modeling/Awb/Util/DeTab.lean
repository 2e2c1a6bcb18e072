import Awb.Builder.Paths
import Mathlib.Data.List.Infix

/-! `StringDeTab` writes a space before it asks how far the next tab stop is. A tab that one space
would bring there goes on to the tab stop behind it. -/

namespace Awb

/-- The text written so far, and the counter of its columns. -/
structure DeTab where
  out : Text
  idx : ℕ
  deriving DecidableEq, Repr

namespace DeTab

/-- The counter is an `int`, and nothing is promised once it overflows. -/
def put (s : DeTab) (c : Char) : Option DeTab :=
  if s.idx + 1 < 2 ^ 31 then some ⟨s.out ++ [c], s.idx + 1⟩ else none

/-- The loop over the spaces of a tab, with what is left to do. -/
def spaces : ℕ → DeTab → Option DeTab
  | 0, s => some s
  | i + 1, s => (s.put ' ').bind (spaces i)

def step (tabSize : ℕ) (s : DeTab) (c : Char) : Option DeTab :=
  if c = '\t' then (s.put ' ').bind fun s => s.spaces (tabSize - s.idx % tabSize) else s.put c

end DeTab

def stringDeTab (tabSize : ℕ) (str : Text) : Option Text :=
  (str.foldlM (DeTab.step tabSize) ⟨[], 0⟩).map DeTab.out

/-! ### Tab stops -/

/-- The column behind a text that starts at column 0, with a tab stop at each multiple. -/
def column (tabSize : ℕ) (str : Text) : ℕ :=
  str.foldl (fun col c => if c = '\t' then (col / tabSize + 1) * tabSize else col + 1) 0

/-- A tab as the spaces up to the next tab stop. -/
def toTabStop (tabSize : ℕ) (out : Text) (c : Char) : Text :=
  if c = '\t' then out ++ List.replicate (tabSize - out.length % tabSize) ' ' else out ++ [c]

def atTabStops (tabSize : ℕ) (str : Text) : Text := str.foldl (toTabStop tabSize) []

section TabStops
variable {tabSize : ℕ} {str front : Text} {c : Char}

theorem column_concat : column tabSize (str ++ [c]) =
    if c = '\t' then (column tabSize str / tabSize + 1) * tabSize else column tabSize str + 1 :=
  List.foldl_concat ..

theorem atTabStops_concat :
    atTabStops tabSize (str ++ [c]) = toTabStop tabSize (atTabStops tabSize str) c :=
  List.foldl_concat ..

/-- The spaces of a tab end at a tab stop. -/
theorem add_spaces (hsize : 1 ≤ tabSize) (col : ℕ) :
    col + (tabSize - col % tabSize) = (col / tabSize + 1) * tabSize := by
  have hlt : col % tabSize < tabSize := Nat.mod_lt _ hsize
  have hdiv : tabSize * (col / tabSize) + col % tabSize = col := Nat.div_add_mod col tabSize
  rw [Nat.add_mul, one_mul, Nat.mul_comm (col / tabSize)]
  omega

theorem length_atTabStops (hsize : 1 ≤ tabSize) (str : Text) :
    (atTabStops tabSize str).length = column tabSize str := by
  induction str using List.reverseRecOn with
  | nil => rfl
  | append_singleton str c ih =>
    rw [atTabStops_concat, column_concat, toTabStop]
    split
    · rw [List.length_append, List.length_replicate, ih, add_spaces hsize]
    · rw [List.length_append, List.length_singleton, ih]

theorem prefix_toTabStop (out : Text) : out <+: toTabStop tabSize out c := by
  unfold toTabStop
  split <;> exact List.prefix_append ..

/-- Every character stands at the column that the text before it ends at. -/
theorem prefix_atTabStops (h : front <+: str) :
    atTabStops tabSize front <+: atTabStops tabSize str := by
  obtain ⟨rest, rfl⟩ := h
  induction rest using List.reverseRecOn with
  | nil => rw [List.append_nil]
  | append_singleton rest c ih =>
    rw [← List.append_assoc, atTabStops_concat]
    exact ih.trans (prefix_toTabStop _)

end TabStops

/-! ### What the loop writes -/

/-- The text after one more character, as long as the counter does not overflow. -/
def written (tabSize : ℕ) (out : Text) (c : Char) : Text :=
  if c = '\t' then out ++ List.replicate (1 + (tabSize - (out.length + 1) % tabSize)) ' '
  else out ++ [c]

/-- The state with the counter at the end of the text. -/
def DeTab.counted (out : Text) : Option DeTab :=
  if out.length < 2 ^ 31 then some ⟨out, out.length⟩ else none

section Loop
variable {tabSize : ℕ} {str front out : Text} {c : Char}

theorem DeTab.put_eq : put ⟨out, out.length⟩ c = counted (out ++ [c]) := by
  rw [put, counted, List.length_append, List.length_singleton]

theorem DeTab.spaces_eq (n : ℕ) (hlt : out.length < 2 ^ 31) :
    spaces n ⟨out, out.length⟩ = counted (out ++ List.replicate n ' ') := by
  induction n generalizing out with
  | zero => rw [List.replicate_zero, List.append_nil, counted, if_pos hlt, spaces]
  | succ n ih =>
    have hmore : out ++ List.replicate (n + 1) ' ' = (out ++ [' ']) ++ List.replicate n ' ' := by
      rw [List.replicate_succ, List.append_assoc, List.singleton_append]
    rw [spaces, put_eq, hmore]
    by_cases hone : (out ++ [' ']).length < 2 ^ 31
    · rw [counted, if_pos hone]
      exact ih hone
    · rw [counted, if_neg hone, counted, if_neg]
      · rfl
      · rw [List.length_append]
        omega

theorem DeTab.step_eq : step tabSize ⟨out, out.length⟩ c = counted (written tabSize out c) := by
  unfold step written
  split
  · rw [put_eq]
    by_cases hone : (out ++ [' ']).length < 2 ^ 31
    · rw [counted, if_pos hone, Option.bind_some, spaces_eq _ hone, List.length_append,
        List.length_singleton, List.append_assoc, List.replicate_add, List.replicate_one]
    · rw [counted, if_neg hone, counted, if_neg]
      · rfl
      · rw [List.length_append, List.length_singleton] at hone
        rw [List.length_append, List.length_replicate]
        omega
  · rw [put_eq]

theorem length_le_written : out.length ≤ (written tabSize out c).length := by
  unfold written
  split <;> simp

theorem length_le_foldl_written (out : Text) :
    out.length ≤ (str.foldl (written tabSize) out).length := by
  induction str generalizing out with
  | nil => rfl
  | cons c str ih => exact length_le_written.trans (ih _)

theorem DeTab.foldlM_step (hlt : out.length < 2 ^ 31) :
    str.foldlM (step tabSize) ⟨out, out.length⟩ = counted (str.foldl (written tabSize) out) := by
  induction str generalizing out with
  | nil => rw [List.foldl_nil, counted, if_pos hlt]; rfl
  | cons c str ih =>
    rw [List.foldlM_cons, step_eq, List.foldl_cons]
    by_cases hone : (written tabSize out c).length < 2 ^ 31
    · rw [counted, if_pos hone]
      exact ih hone
    · -- The text only grows, so the counter has overflowed for good.
      rw [counted, if_neg hone, counted, if_neg]
      · rfl
      · exact fun h => hone ((length_le_foldl_written _).trans_lt h)

/-- The function is the loop without the counter, unless the counter overflows. -/
theorem stringDeTab_eq : stringDeTab tabSize str =
    if (str.foldl (written tabSize) []).length < 2 ^ 31 then
      some (str.foldl (written tabSize) []) else none := by
  have hrun := @DeTab.foldlM_step tabSize str [] (by decide)
  rw [stringDeTab, show DeTab.mk [] 0 = ⟨[], ([] : Text).length⟩ from rfl, hrun, DeTab.counted]
  split <;> rfl

end Loop

/-! ### Where the two agree -/

/-- No tab stands in the last column before a tab stop. -/
def ClearOfStops (tabSize : ℕ) (str : Text) : Prop :=
  ∀ front, front ++ ['\t'] <+: str → (column tabSize front + 1) % tabSize ≠ 0

instance (tabSize : ℕ) (str : Text) : Decidable (ClearOfStops tabSize str) :=
  decidable_of_iff (∀ front ∈ str.inits, front ++ ['\t'] <+: str →
      (column tabSize front + 1) % tabSize ≠ 0)
    ⟨fun h front hfront => h front ((List.mem_inits front str).mpr
      ((List.prefix_append front ['\t']).trans hfront)) hfront, fun h front _ => h front⟩

section Agreement
variable {tabSize : ℕ} {str : Text} {c : Char}

theorem clearOfStops_concat_iff : ClearOfStops tabSize (str ++ [c]) ↔
    ClearOfStops tabSize str ∧ (c = '\t' → (column tabSize str + 1) % tabSize ≠ 0) := by
  constructor
  · intro h
    refine ⟨fun front hfront => h front (hfront.trans (List.prefix_append ..)), ?_⟩
    rintro rfl
    exact h str List.prefix_rfl
  · rintro ⟨hstr, hlast⟩ front hfront
    rcases List.prefix_concat_iff.mp hfront with heq | hfront
    · obtain ⟨rfl, hc⟩ := List.append_inj' heq rfl
      exact hlast (List.singleton_inj.mp hc).symm
    · exact hstr front hfront

/-- The spaces of a tab are one tab stop too many in the last column before a tab stop. -/
theorem tab_width (hsize : 1 ≤ tabSize) (col : ℕ) : 1 + (tabSize - (col + 1) % tabSize) =
    (tabSize - col % tabSize) + if (col + 1) % tabSize = 0 then tabSize else 0 := by
  have hlt : col % tabSize < tabSize := Nat.mod_lt _ hsize
  have hsucc : (col + 1) % tabSize = if col % tabSize + 1 = tabSize then 0
      else col % tabSize + 1 := by
    rw [← Nat.mod_add_mod]
    split
    next h => rw [h, Nat.mod_self]
    next h => exact Nat.mod_eq_of_lt (by omega)
  rw [hsucc]
  split
  · rw [if_pos rfl]
    omega
  · rw [if_neg (Nat.succ_ne_zero _)]
    omega

/-- The text is as many tab stops too long as there are tabs without room, which keeps what
follows at the same distance from a tab stop. -/
theorem foldl_written (hsize : 1 ≤ tabSize) (str : Text) :
    ∃ late, (str.foldl (written tabSize) []).length = column tabSize str + tabSize * late ∧
      (late = 0 → str.foldl (written tabSize) [] = atTabStops tabSize str ∧
        ClearOfStops tabSize str) ∧
      (late ≠ 0 → ¬ ClearOfStops tabSize str) := by
  induction str using List.reverseRecOn with
  | nil => exact ⟨0, rfl, fun _ => ⟨rfl, fun front h => by simp at h⟩, fun h => absurd rfl h⟩
  | append_singleton str c ih =>
    obtain ⟨late, hlength, hsame, hlate⟩ := ih
    rw [List.foldl_concat, column_concat, atTabStops_concat, clearOfStops_concat_iff]
    by_cases hc : c = '\t'
    · -- The distance to the tab stop is that of the column in the input.
      have hwidth := tab_width hsize (column tabSize str)
      have hstop := add_spaces hsize (column tabSize str)
      have hmod : ((str.foldl (written tabSize) []).length + 1) % tabSize =
          (column tabSize str + 1) % tabSize := by
        rw [hlength, Nat.add_right_comm, Nat.add_mul_mod_self_left]
      rw [written, if_pos hc, if_pos hc, toTabStop, if_pos hc, List.length_append,
        List.length_replicate, hmod, hwidth]
      by_cases hlast : (column tabSize str + 1) % tabSize = 0
      · refine ⟨late + 1, ?_, fun h => absurd h (Nat.succ_ne_zero late), fun _ h => h.2 hc hlast⟩
        rw [if_pos hlast, Nat.mul_succ]
        omega
      · rw [if_neg hlast, Nat.add_zero]
        refine ⟨late, by omega, fun h => ?_, fun h hclear => hlate h hclear.1⟩
        obtain ⟨htext, hclear⟩ := hsame h
        rw [htext, length_atTabStops hsize]
        exact ⟨rfl, hclear, fun _ => hlast⟩
    · rw [written, if_neg hc, if_neg hc, toTabStop, if_neg hc, List.length_append,
        List.length_singleton]
      refine ⟨late, by omega, fun h => ?_, fun h hclear => hlate h hclear.1⟩
      obtain ⟨htext, hclear⟩ := hsame h
      rw [htext]
      exact ⟨rfl, hclear, fun h => absurd h hc⟩

/-- The tabs become the spaces up to the next tab stop exactly if each leaves room for more than
one of them and the counter does not overflow. -/
theorem stringDeTab_eq_atTabStops_iff (tabSize : ℕ) (str : Text) (hsize : 1 ≤ tabSize) :
    stringDeTab tabSize str = some (atTabStops tabSize str) ↔
      ClearOfStops tabSize str ∧ column tabSize str < 2 ^ 31 := by
  obtain ⟨late, hlength, hsame, hlate⟩ := foldl_written hsize str
  rw [stringDeTab_eq]
  by_cases hzero : late = 0
  · obtain ⟨htext, hclear⟩ := hsame hzero
    rw [htext, length_atTabStops hsize]
    split
    next hlt => exact iff_of_true rfl ⟨hclear, hlt⟩
    next hlt => exact iff_of_false (Option.some_ne_none _).symm fun h => hlt h.2
  · refine iff_of_false ?_ fun h => hlate hzero h.1
    split
    next =>
      intro h
      -- The text is at least one tab stop too long.
      rw [Option.some.inj h, length_atTabStops hsize] at hlength
      have hpos := Nat.mul_pos hsize (Nat.pos_of_ne_zero hzero)
      omega
    next => exact (Option.some_ne_none _).symm

theorem stringDeTab_aligned :
    stringDeTab 8 "ab\tc\t\td".toList = some "ab      c               d".toList :=
  ((stringDeTab_eq_atTabStops_iff 8 "ab\tc\t\td".toList (by decide)).mpr (by decide)).trans
    (by decide)

/-- The tab behind seven characters. -/
theorem stringDeTab_seven : stringDeTab 8 "abcdefg\t".toList ≠
    some (atTabStops 8 "abcdefg\t".toList) := by
  decide

end Agreement
end Awb
