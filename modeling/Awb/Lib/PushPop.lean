import Mathlib.Tactic

/-! A stack that reads a list: some elements are pushed, some remove the top of the stack and the
others do nothing. What is on the stack in the end can be read off the list from the right. -/

namespace PushPop
variable {α : Type*} (push pop : α → Bool)

/-- The stack, its top last, after a list was read. An empty stack stays empty under a clamp, and
otherwise nothing can be removed from it. -/
def run (clamp : Bool) : List α → List α → Option (List α)
  | stack, [] => some stack
  | stack, a :: l =>
    if pop a then
      if stack = [] then (if clamp then run clamp [] l else none)
      else run clamp stack.dropLast l
    else if push a then run clamp (stack ++ [a]) l
    else run clamp stack l

/-- How many elements a list removes beyond those that it pushes itself. -/
def excess : List α → ℕ
  | [] => 0
  | a :: l =>
    if pop a then excess l + 1
    else if push a then excess l - 1
    else excess l

/-- The elements that are pushed and not removed again. -/
def survivors : List α → List α
  | [] => []
  | a :: l =>
    if !pop a && push a && excess push pop l == 0 then a :: survivors l else survivors l

variable {push pop} {clamp : Bool} {a : α} {l stack : List α}

theorem excess_cons_pop (h : pop a = true) :
    excess push pop (a :: l) = excess push pop l + 1 := if_pos h

theorem excess_cons_push (h : pop a = false) (hpush : push a = true) :
    excess push pop (a :: l) = excess push pop l - 1 := by
  rw [excess, if_neg (Bool.eq_false_iff.mp h), if_pos hpush]

theorem excess_cons_other (h : pop a = false) (hpush : push a = false) :
    excess push pop (a :: l) = excess push pop l := by
  rw [excess, if_neg (Bool.eq_false_iff.mp h), if_neg (Bool.eq_false_iff.mp hpush)]

theorem survivors_cons_keep (h : pop a = false) (hpush : push a = true)
    (hl : excess push pop l = 0) : survivors push pop (a :: l) = a :: survivors push pop l := by
  rw [survivors, if_pos (by simp [h, hpush, hl])]

theorem survivors_cons_skip (h : ¬ (pop a = false ∧ push a = true ∧ excess push pop l = 0)) :
    survivors push pop (a :: l) = survivors push pop l := by
  rw [survivors, if_neg]
  intro hkeep
  simp only [Bool.and_eq_true, Bool.not_eq_true', beq_iff_eq] at hkeep
  exact h ⟨hkeep.1.1, hkeep.1.2, hkeep.2⟩

/-- What is left of the stack, followed by what survives of the list. -/
theorem run_eq : run push pop clamp stack l =
    if clamp = true ∨ excess push pop l ≤ stack.length then
      some (stack.take (stack.length - excess push pop l) ++ survivors push pop l)
    else none := by
  induction l generalizing stack with
  | nil => simp [run, excess, survivors]
  | cons a l ih =>
    cases hpop : pop a with
    | true =>
      rw [run, if_pos hpop, excess_cons_pop hpop, survivors_cons_skip (by simp [hpop])]
      rcases List.eq_nil_or_concat' stack with rfl | ⟨init, top, rfl⟩
      · cases clamp
        · simp
        · simp [ih]
      · rw [if_neg (by simp), List.dropLast_concat, ih]
        simp only [List.length_append, List.length_singleton, Nat.add_sub_add_right,
          Nat.add_le_add_iff_right]
        rw [List.take_append_of_le_length (Nat.sub_le ..)]
    | false =>
      cases hpush : push a with
      | true =>
        rw [run, if_neg (Bool.eq_false_iff.mp hpop), if_pos hpush, ih,
          excess_cons_push hpop hpush, List.length_append, List.length_singleton]
        rcases Nat.eq_zero_or_pos (excess push pop l) with hzero | hpos
        · have htake : (stack ++ [a]).take (stack.length + 1) = stack ++ [a] :=
            List.take_of_length_le (by simp)
          rw [survivors_cons_keep hpop hpush hzero, hzero]
          simp [htake]
        · rw [survivors_cons_skip fun h => Nat.ne_of_gt hpos h.2.2]
          have hlen : stack.length + 1 - excess push pop l =
              stack.length - (excess push pop l - 1) := by omega
          rw [hlen, List.take_append_of_le_length (Nat.sub_le ..)]
          simp only [Nat.sub_le_iff_le_add]
      | false =>
        rw [run, if_neg (Bool.eq_false_iff.mp hpop), if_neg (Bool.eq_false_iff.mp hpush), ih,
          excess_cons_other hpop hpush, survivors_cons_skip (by simp [hpush])]

theorem run_clamped : run push pop true stack l =
    some (stack.take (stack.length - excess push pop l) ++ survivors push pop l) := by
  rw [run_eq, if_pos (Or.inl rfl)]

theorem run_empty : run push pop clamp [] l =
    if clamp = true ∨ excess push pop l = 0 then some (survivors push pop l) else none := by
  rw [run_eq]
  simp

theorem run_append {k : List α} : run push pop clamp stack (k ++ l) =
    (run push pop clamp stack k).bind fun stack => run push pop clamp stack l := by
  induction k generalizing stack with
  | nil => rfl
  | cons a k ih =>
    rw [List.cons_append, run, run]
    split
    · split
      · split
        · exact ih
        · rfl
      · exact ih
    · split <;> exact ih

/-- Elements that remove nothing. -/
theorem run_of_noPop (h : ∀ a ∈ l, pop a = false) :
    run push pop clamp stack l = some (stack ++ l.filter push) := by
  induction l generalizing stack with
  | nil => rw [run, List.filter_nil, List.append_nil]
  | cons a l ih =>
    obtain ⟨hpop, hl⟩ := List.forall_mem_cons.mp h
    rw [run, if_neg (Bool.eq_false_iff.mp hpop), ih hl, ih hl]
    split
    next hpush =>
      rw [List.filter_cons_of_pos hpush, List.append_assoc]
      rfl
    next hpush => rw [List.filter_cons_of_neg hpush]

theorem excess_append_of_zero {k : List α} (h : excess push pop l = 0) :
    excess push pop (k ++ l) = excess push pop k := by
  induction k with
  | nil => exact h
  | cons a k ih => rw [List.cons_append, excess, excess, ih]

/-- Nothing of the first part is removed by a second part that removes nothing from below. -/
theorem survivors_append_of_zero {k : List α} (h : excess push pop l = 0) :
    survivors push pop (k ++ l) = survivors push pop k ++ survivors push pop l := by
  induction k with
  | nil => rfl
  | cons a k ih =>
    rw [List.cons_append, survivors, survivors, excess_append_of_zero h, ih]
    split <;> rfl

/-- Pushes and removals balance. -/
theorem length_survivors : (survivors push pop l).length + l.countP pop =
    l.countP (fun a => !pop a && push a) + excess push pop l := by
  induction l with
  | nil => rfl
  | cons a l ih =>
    rw [List.countP_cons, List.countP_cons]
    cases hpop : pop a with
    | true =>
      rw [excess_cons_pop hpop, survivors_cons_skip (by simp [hpop])]
      simp only [Bool.not_true, Bool.false_and, Bool.false_eq_true, if_true, if_false]
      omega
    | false =>
      cases hpush : push a with
      | true =>
        rw [excess_cons_push hpop hpush]
        simp only [Bool.not_false, Bool.true_and, Bool.false_eq_true, if_true, if_false]
        rcases Nat.eq_zero_or_pos (excess push pop l) with hzero | hpos
        · rw [survivors_cons_keep hpop hpush hzero, List.length_cons]
          omega
        · rw [survivors_cons_skip fun h => Nat.ne_of_gt hpos h.2.2]
          omega
      | false =>
        rw [excess_cons_other hpop hpush, survivors_cons_skip (by simp [hpush])]
        simp only [Bool.and_false, Bool.false_eq_true, if_false]
        omega

/-- Where the first survivor stands: what precedes it cancels out. -/
theorem survivors_eq_cons {s : List α} (h : survivors push pop l = a :: s) :
    ∃ front rest, l = front ++ a :: rest ∧ survivors push pop front = [] ∧
      pop a = false ∧ push a = true ∧ excess push pop rest = 0 ∧ survivors push pop rest = s := by
  induction l with
  | nil => cases h
  | cons b l ih =>
    by_cases hkeep : pop b = false ∧ push b = true ∧ excess push pop l = 0
    · rw [survivors_cons_keep hkeep.1 hkeep.2.1 hkeep.2.2] at h
      obtain ⟨rfl, rfl⟩ := List.cons.inj h
      exact ⟨[], l, rfl, rfl, hkeep.1, hkeep.2.1, hkeep.2.2, rfl⟩
    · rw [survivors_cons_skip hkeep] at h
      obtain ⟨front, rest, rfl, hfront, hpop, hpush, hrest, hs⟩ := ih h
      refine ⟨b :: front, rest, rfl, ?_, hpop, hpush, hrest, hs⟩
      have hzero : excess push pop (a :: rest) = 0 := by
        rw [excess_cons_push hpop hpush, hrest]
      rw [excess_append_of_zero hzero] at hkeep
      rw [survivors_cons_skip hkeep, hfront]

/-- A survivor is pushed, and what follows removes nothing before it. -/
theorem mem_survivors_iff {b : α} : b ∈ survivors push pop l ↔
    ∃ front rest, l = front ++ b :: rest ∧ pop b = false ∧ push b = true ∧
      excess push pop rest = 0 := by
  induction l with
  | nil => simp [survivors]
  | cons a l ih =>
    have hsplit : (∃ front rest, a :: l = front ++ b :: rest ∧ pop b = false ∧ push b = true ∧
        excess push pop rest = 0) ↔
        (a = b ∧ pop a = false ∧ push a = true ∧ excess push pop l = 0) ∨
          b ∈ survivors push pop l := by
      rw [ih]
      constructor
      · rintro ⟨_ | ⟨c, front⟩, rest, heq, hb⟩
        · obtain ⟨rfl, rfl⟩ := List.cons.inj heq
          exact Or.inl ⟨rfl, hb⟩
        · obtain ⟨-, hl⟩ := List.cons.inj heq
          exact Or.inr ⟨front, rest, hl, hb⟩
      · rintro (⟨rfl, ha⟩ | ⟨front, rest, rfl, hb⟩)
        · exact ⟨[], l, rfl, ha⟩
        · exact ⟨a :: front, rest, rfl, hb⟩
    rw [hsplit]
    by_cases hkeep : pop a = false ∧ push a = true ∧ excess push pop l = 0
    · rw [survivors_cons_keep hkeep.1 hkeep.2.1 hkeep.2.2, List.mem_cons]
      exact or_congr ⟨fun h => ⟨h.symm, hkeep⟩, fun h => h.1.symm⟩ Iff.rfl
    · rw [survivors_cons_skip hkeep]
      exact ⟨Or.inr, fun h => h.elim (fun h => absurd h.2 hkeep) id⟩

theorem survivors_sublist : (survivors push pop l).Sublist l := by
  induction l with
  | nil => exact List.Sublist.refl _
  | cons a l ih =>
    by_cases hkeep : pop a = false ∧ push a = true ∧ excess push pop l = 0
    · rw [survivors_cons_keep hkeep.1 hkeep.2.1 hkeep.2.2]
      exact ih.cons_cons a
    · rw [survivors_cons_skip hkeep]
      exact ih.cons a

/-- A list weighs at least as much as its survivors and what it removes from below. -/
theorem weight_le {weight : α → ℕ} {w : ℕ} (hpops : ∀ a, pop a = true → w ≤ weight a) :
    w * excess push pop l + ((survivors push pop l).map weight).sum ≤ (l.map weight).sum := by
  induction l with
  | nil => simp [excess, survivors]
  | cons a l ih =>
    rw [List.map_cons, List.sum_cons]
    cases hpop : pop a with
    | true =>
      have hw := hpops a hpop
      rw [excess_cons_pop hpop, survivors_cons_skip (by simp [hpop]), Nat.mul_succ]
      omega
    | false =>
      cases hpush : push a with
      | true =>
        rw [excess_cons_push hpop hpush]
        have hle : w * (excess push pop l - 1) ≤ w * excess push pop l :=
          Nat.mul_le_mul_left w (Nat.sub_le ..)
        rcases Nat.eq_zero_or_pos (excess push pop l) with hzero | hpos
        · rw [survivors_cons_keep hpop hpush hzero, List.map_cons, List.sum_cons]
          omega
        · rw [survivors_cons_skip fun h => Nat.ne_of_gt hpos h.2.2]
          omega
      | false =>
        rw [excess_cons_other hpop hpush, survivors_cons_skip (by simp [hpush])]
        omega

/-! ### Two notions of what is pushed -/

section Compare
variable {push' : α → Bool}

/-- More pushes, fewer removals from below. -/
theorem excess_le (h : ∀ a, push a = true → push' a = true) :
    excess push' pop l ≤ excess push pop l := by
  induction l with
  | nil => exact le_rfl
  | cons a l ih =>
    cases hpop : pop a with
    | true => rw [excess_cons_pop hpop, excess_cons_pop hpop]; exact Nat.succ_le_succ ih
    | false =>
      cases hpush : push a with
      | true =>
        rw [excess_cons_push hpop hpush, excess_cons_push hpop (h a hpush)]
        exact Nat.sub_le_sub_right ih 1
      | false =>
        rw [excess_cons_other hpop hpush]
        cases hpush' : push' a with
        | true => rw [excess_cons_push hpop hpush']; exact (Nat.sub_le ..).trans ih
        | false => rw [excess_cons_other hpop hpush']; exact ih

/-- Every element that both push survives under both or under neither. -/
def SameSurvival (push push' pop : α → Bool) (l : List α) : Prop :=
  ∀ front a rest, l = front ++ a :: rest → pop a = false → push a = true →
    excess push' pop rest = 0 → excess push pop rest = 0

theorem sameSurvival_cons : SameSurvival push push' pop (a :: l) ↔
    (pop a = false → push a = true → excess push' pop l = 0 → excess push pop l = 0) ∧
      SameSurvival push push' pop l := by
  constructor
  · exact fun h => ⟨h [] a l rfl, fun front b rest hl => h (a :: front) b rest (hl ▸ rfl)⟩
  · rintro ⟨hhere, hrest⟩ (_ | ⟨c, front⟩) b rest heq
    · obtain ⟨rfl, rfl⟩ := List.cons.inj heq
      exact hhere
    · exact hrest front b rest (List.cons.inj heq).2

/-- Who survives as the only kind also survives among more. -/
theorem length_survivors_le (h : ∀ a, push a = true → push' a = true) :
    (survivors push pop l).length ≤ ((survivors push' pop l).filter push).length := by
  induction l with
  | nil => exact le_rfl
  | cons a l ih =>
    by_cases hkeep : pop a = false ∧ push a = true ∧ excess push pop l = 0
    · have hzero : excess push' pop l = 0 := Nat.le_zero.mp (hkeep.2.2 ▸ excess_le h)
      rw [survivors_cons_keep hkeep.1 hkeep.2.1 hkeep.2.2,
        survivors_cons_keep hkeep.1 (h a hkeep.2.1) hzero, List.filter_cons_of_pos hkeep.2.1]
      exact Nat.succ_le_succ ih
    · rw [survivors_cons_skip hkeep]
      refine ih.trans ?_
      by_cases hkeep' : pop a = false ∧ push' a = true ∧ excess push' pop l = 0
      · rw [survivors_cons_keep hkeep'.1 hkeep'.2.1 hkeep'.2.2]
        exact ((List.sublist_cons_self ..).filter _).length_le
      · rw [survivors_cons_skip hkeep']

/-- The survivors that are pushed in both ways are the same exactly if every one survives both. -/
theorem filter_survivors_iff (h : ∀ a, push a = true → push' a = true) :
    (survivors push' pop l).filter push = survivors push pop l ↔
      SameSurvival push push' pop l := by
  induction l with
  | nil => exact ⟨fun _ _ _ _ heq => absurd heq (by simp), fun _ => rfl⟩
  | cons a l ih =>
    rw [sameSurvival_cons, ← ih]
    by_cases hkeep : pop a = false ∧ push a = true ∧ excess push pop l = 0
    · have hzero : excess push' pop l = 0 := Nat.le_zero.mp (hkeep.2.2 ▸ excess_le h)
      rw [survivors_cons_keep hkeep.1 hkeep.2.1 hkeep.2.2,
        survivors_cons_keep hkeep.1 (h a hkeep.2.1) hzero, List.filter_cons_of_pos hkeep.2.1,
        List.cons_inj_right]
      exact ⟨fun hl => ⟨fun _ _ _ => hkeep.2.2, hl⟩, And.right⟩
    · rw [survivors_cons_skip hkeep]
      by_cases hmore : pop a = false ∧ push a = true ∧ excess push' pop l = 0
      · rw [survivors_cons_keep hmore.1 (h a hmore.2.1) hmore.2.2,
          List.filter_cons_of_pos hmore.2.1]
        constructor
        · intro heq
          have hle := @length_survivors_le _ _ pop l _ h
          rw [← heq, List.length_cons] at hle
          exact absurd hle (Nat.not_succ_le_self _)
        · rintro ⟨himp, -⟩
          exact absurd ⟨hmore.1, hmore.2.1, himp hmore.1 hmore.2.1 hmore.2.2⟩ hkeep
      · have hsame : (survivors push' pop (a :: l)).filter push =
            (survivors push' pop l).filter push := by
          by_cases hkeep' : pop a = false ∧ push' a = true ∧ excess push' pop l = 0
          · rw [survivors_cons_keep hkeep'.1 hkeep'.2.1 hkeep'.2.2, List.filter_cons_of_neg]
            exact fun hpush => hmore ⟨hkeep'.1, hpush, hkeep'.2.2⟩
          · rw [survivors_cons_skip hkeep']
        rw [hsame]
        exact ⟨fun hl => ⟨fun hpop hpush hzero => absurd ⟨hpop, hpush, hzero⟩ hmore, hl⟩, And.right⟩

end Compare

end PushPop
