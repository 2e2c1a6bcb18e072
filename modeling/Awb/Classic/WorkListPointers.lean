import Awb.Classic.WorkItem
import Awb.Lib.LinkedChain
import Mathlib.Tactic

/-! `CMD_WORKLIST_CLASS` by its pointers: several lists of work items in one memory, and what its
methods do to `head`, `tail` and the `next` of the items. -/

namespace Awb.Classic.Pointers
open Chain

/-! ### The class -/

/-- The pointers of all items and of all lists. An item is given by its address. -/
structure Memory (ι : Type) where
  next : ℕ → Option ℕ
  head : ι → Option ℕ
  tail : ι → Option ℕ

namespace Memory
variable {ι : Type} [DecidableEq ι]

def new : Memory ι := ⟨fun _ => none, fun _ => none, fun _ => none⟩

@[simps] def setNext (m : Memory ι) (a : ℕ) (b : Option ℕ) : Memory ι :=
  { m with next := Function.update m.next a b }

@[simps] def setHead (m : Memory ι) (i : ι) (a : Option ℕ) : Memory ι :=
  { m with head := Function.update m.head i a }

@[simps] def setTail (m : Memory ι) (i : ι) (a : Option ℕ) : Memory ι :=
  { m with tail := Function.update m.tail i a }

end Memory

section
variable (next : ℕ → Option ℕ)

/-- The scan for the item before one. -/
def findBefore (item : ℕ) : ℕ → Option ℕ → Option ℕ
  | 0, _ => none
  | _ + 1, none => none
  | fuel + 1, some scan =>
    if next scan = some item then some scan else findBefore item fuel (next scan)

/-- The scan for the item to insert another one behind. -/
def findPlace (time : ℕ → ℕ) (tail : Option ℕ) (t : ℕ) : ℕ → ℕ → Option ℕ
  | 0, _ => none
  | fuel + 1, scan =>
    if some scan = tail then some scan
    else (next scan).bind fun n => if time n ≤ t then findPlace time tail t fuel n else some scan

end

variable {ι : Type} [DecidableEq ι]

/-- `RemoveItem` for an item that is not `NULL`. -/
def removeItem (fuel : ℕ) (i : ι) (item : ℕ) (m : Memory ι) : Option (Memory ι) :=
  if m.head i = some item then
    let m' := if m.head i = m.tail i then (m.setHead i none).setTail i none
      else m.setHead i (m.next item)
    some (m'.setNext item none)
  else
    (findBefore m.next item fuel (m.head i)).map fun scan =>
      let m' := m.setNext scan (m.next item)
      let m' := if m.tail i = some item then m'.setTail i (some scan) else m'
      m'.setNext item none

def insertOrdered (fuel : ℕ) (item : ℕ → WorkItem) (i : ι) (wi : ℕ) (m : Memory ι) :
    Option (Memory ι) :=
  if ((item wi).trigger = .now ∧ (item wi).actionTime ≠ 0) ∨ m.next wi ≠ none then none
  else match m.head i with
    | none => if m.tail i = none then some ((m.setHead i (some wi)).setTail i (some wi)) else none
    | some first =>
      if m.tail i = none then none
      else if (item wi).time < (item first).time then
        some ((m.setNext wi (some first)).setHead i (some wi))
      else
        (findPlace m.next (fun a => (item a).time) (m.tail i) (item wi).time fuel first).map
          fun scan =>
            let m' := (m.setNext wi (m.next scan)).setNext scan (some wi)
            if m.tail i = some scan then m'.setTail i (some wi) else m'

def add (i : ι) (wi : ℕ) (m : Memory ι) : Option (Memory ι) :=
  if m.next wi ≠ none then none
  else match m.head i with
    | none => if m.tail i = none then some ((m.setHead i (some wi)).setTail i (some wi)) else none
    | some _ => (m.tail i).map fun last => (m.setNext last (some wi)).setTail i (some wi)

def remove (fuel : ℕ) (i : ι) (m : Memory ι) : Option (Memory ι) :=
  (m.head i).bind fun item => removeItem fuel i item m

/-- The loop of `ClearProgress`, which looks at the next item before it removes one. -/
def clearFrom (fuel : ℕ) (item : ℕ → WorkItem) (i : ι) :
    ℕ → Option ℕ → Memory ι → Option (Memory ι)
  | _, none, m => some m
  | 0, some _, _ => none
  | passes + 1, some scan, m =>
    if WorkList.isProgress (item scan) then
      (removeItem fuel i scan m).bind (clearFrom fuel item i passes (m.next scan))
    else clearFrom fuel item i passes (m.next scan) m

def clearProgress (fuel : ℕ) (item : ℕ → WorkItem) (i : ι) (m : Memory ι) : Option (Memory ι) :=
  clearFrom fuel item i fuel (m.head i) m

inductive ListOp
  | insertOrdered (wi : ℕ)
  | add (wi : ℕ)
  | remove
  | clearProgress

/-- A call for a list, with the fields of the items at its time. -/
structure Call (ι : Type) where
  list : ι
  op : ListOp
  item : ℕ → WorkItem

def step (fuel : ℕ) (c : Call ι) (m : Memory ι) : Option (Memory ι) :=
  match c.op with
  | .insertOrdered wi => insertOrdered fuel c.item c.list wi m
  | .add wi => add c.list wi m
  | .remove => remove fuel c.list m
  | .clearProgress => clearProgress fuel c.item c.list m

/-! ### Runs -/

/-- Items that are reached from the head of a list. -/
def InList (m : Memory ι) (i : ι) (a : ℕ) : Prop := ∃ l, Linked m.next (m.head i) l ∧ a ∈ l

/-- An item is in one list at most, the constructor's check holds of it, and no item is removed from
an empty list. -/
def Allowed (m : Memory ι) (c : Call ι) : Prop :=
  match c.op with
  | .insertOrdered wi => (∀ i, ¬InList m i wi) ∧ (c.item wi).NowZero
  | .add wi => ∀ i, ¬InList m i wi
  | .remove => m.head c.list ≠ none
  | .clearProgress => True

/-- Sequences of calls. A loop never needs more passes than there were calls. -/
inductive Run : ℕ → Memory ι → Prop
  | new : Run 0 Memory.new
  | call {n : ℕ} {m m' : Memory ι} {c : Call ι} (hm : Run n m) (hc : Allowed m c)
      (hstep : step n c m = some m') : Run (n + 1) m'

/-- The pointers are those of some lists without common items. -/
structure WellFormed (m : Memory ι) (lists : ι → List ℕ) : Prop where
  linked : ∀ i, Linked m.next (m.head i) (lists i)
  tail : ∀ i, m.tail i = (lists i).getLast?
  disjoint : ∀ i j a, a ∈ lists i → a ∈ lists j → i = j
  free : ∀ a, (∀ i, a ∉ lists i) → m.next a = none

/-- What a call is for. -/
def ListOp.apply (item : ℕ → WorkItem) : ListOp → List ℕ → List ℕ
  | insertOrdered wi, l => StableInsert.insert (fun a => (item a).time) wi l
  | add wi, l => l ++ [wi]
  | remove, l => l.tail
  | clearProgress, l => l.filter fun a => !WorkList.isProgress (item a)

/-! ### Scans -/

section
variable {next : ℕ → Option ℕ} {h : Option ℕ} {front back : List ℕ} {x scan fuel : ℕ}

theorem findBefore_spec (hl : Linked next h (front ++ scan :: x :: back))
    (hfuel : front.length < fuel) : findBefore next x fuel h = some scan := by
  induction front generalizing h fuel with
  | nil =>
    obtain ⟨fuel, rfl⟩ := Nat.exists_eq_add_one_of_ne_zero (by omega : fuel ≠ 0)
    obtain rfl : h = some scan := hl.1
    rw [findBefore, if_pos hl.2.1]
  | cons c front ih =>
    rw [List.length_cons] at hfuel
    obtain ⟨fuel, rfl⟩ := Nat.exists_eq_add_one_of_ne_zero (by omega : fuel ≠ 0)
    have hnodup := (List.nodup_cons.mp hl.nodup).2
    obtain rfl : h = some c := hl.1
    have hne : next c ≠ some x := by
      rw [hl.2.head]
      cases front with
      | nil =>
        rintro ⟨⟩
        exact (List.nodup_cons.mp hnodup).1 List.mem_cons_self
      | cons d front =>
        rintro ⟨⟩
        exact (List.nodup_cons.mp hnodup).1 (by simp)
    rw [findBefore, if_neg hne]
    exact ih hl.2 (by omega)

/-- The scan stops where the insertion into a list does. -/
theorem findPlace_spec (time : ℕ → ℕ) {a : ℕ} (wi : ℕ) (hl : Linked next (some a) (a :: back))
    (ha : time a ≤ time wi) (hfuel : back.length < fuel) :
    ∃ mid scan rest, a :: back = mid ++ scan :: rest ∧
      findPlace next time (a :: back).getLast? (time wi) fuel a = some scan ∧
      StableInsert.insert time wi (a :: back) = mid ++ scan :: wi :: rest := by
  induction back generalizing a fuel with
  | nil =>
    obtain ⟨fuel, rfl⟩ := Nat.exists_eq_add_one_of_ne_zero (by omega : fuel ≠ 0)
    refine ⟨[], a, [], rfl, by rw [findPlace, if_pos List.getLast?_singleton.symm], ?_⟩
    rw [StableInsert.insert_cons, if_neg (Nat.not_lt.mpr ha)]
    rfl
  | cons b back ih =>
    rw [List.length_cons] at hfuel
    obtain ⟨fuel, rfl⟩ := Nat.exists_eq_add_one_of_ne_zero (by omega : fuel ≠ 0)
    have hnodup := hl.nodup
    have hb : next a = some b := hl.2.1
    have hlast : some a ≠ (a :: b :: back).getLast? := by
      intro hlast
      have hmem : a ∈ b :: back := List.mem_of_getLast? (by rw [hlast, List.getLast?_cons_cons])
      exact (List.nodup_cons.mp hnodup).1 hmem
    rw [findPlace, if_neg hlast, hb, Option.bind_some, StableInsert.insert_cons,
      if_neg (Nat.not_lt.mpr ha)]
    by_cases htime : time b ≤ time wi
    · have hrest : Linked next (some b) (b :: back) := hb ▸ hl.2
      have hlength : back.length < fuel := by omega
      obtain ⟨mid, scan, rest, hsplit, hplace, hinsert⟩ := ih hrest htime hlength
      refine ⟨a :: mid, scan, rest, by rw [hsplit]; rfl, ?_, by rw [hinsert]; rfl⟩
      rw [if_pos htime, List.getLast?_cons_cons, hplace]
    · refine ⟨[], a, b :: back, rfl, by rw [if_neg htime], ?_⟩
      rw [StableInsert.insert_cons, if_pos (Nat.not_le.mp htime)]
      rfl

end

/-! ### What a call keeps -/

variable {m m' : Memory ι} {lists : ι → List ℕ} {i : ι} {wi n fuel : ℕ}

/-- One list changes, and the items of the others are left alone. -/
theorem WellFormed.set (hm : WellFormed m lists) {l : List ℕ}
    (hl : Linked m'.next (m'.head i) l) (htail : m'.tail i = l.getLast?)
    (hother : ∀ j, j ≠ i → m'.head j = m.head j ∧ m'.tail j = m.tail j)
    (hnext : ∀ j, j ≠ i → ∀ a ∈ lists j, m'.next a = m.next a)
    (hdisjoint : ∀ j, j ≠ i → ∀ a ∈ l, a ∉ lists j)
    (hfree : ∀ a, a ∉ l → (∀ j, j ≠ i → a ∉ lists j) → m'.next a = none) :
    WellFormed m' (Function.update lists i l) where
  linked j := by
    by_cases hj : j = i
    · subst hj
      rwa [Function.update_self]
    · rw [Function.update_of_ne hj, (hother j hj).1]
      exact (hm.linked j).congr (hnext j hj)
  tail j := by
    by_cases hj : j = i
    · subst hj
      rwa [Function.update_self]
    · rw [Function.update_of_ne hj, (hother j hj).2, hm.tail j]
  disjoint j k a hj hk := by
    by_contra hne
    by_cases hji : j = i
    · subst hji
      rw [Function.update_self] at hj
      rw [Function.update_of_ne (Ne.symm hne)] at hk
      exact hdisjoint k (Ne.symm hne) a hj hk
    · rw [Function.update_of_ne hji] at hj
      by_cases hki : k = i
      · subst hki
        rw [Function.update_self] at hk
        exact hdisjoint j hji a hk hj
      · rw [Function.update_of_ne hki] at hk
        exact hne (hm.disjoint j k a hj hk)
  free a ha := by
    refine hfree a (fun hal => ha i (by rwa [Function.update_self])) fun j hj haj => ?_
    exact ha j (by rwa [Function.update_of_ne hj])

theorem removeItem_spec (hm : WellFormed m lists) {x : ℕ} (hx : x ∈ lists i)
    (hfuel : (lists i).length ≤ fuel) :
    ∃ m', removeItem fuel i x m = some m' ∧
      WellFormed m' (Function.update lists i ((lists i).erase x)) := by
  have hlinked := hm.linked i
  have htail := hm.tail i
  have hnodup := hlinked.nodup
  have hothers : ∀ j, j ≠ i → ∀ a ∈ lists j, a ∉ lists i := fun j hj a ha ha' =>
    hj (hm.disjoint j i a ha ha')
  rw [removeItem]
  by_cases hhead : m.head i = some x
  · -- the first item
    rw [if_pos hhead]
    obtain ⟨rest, hrest⟩ : ∃ rest, lists i = x :: rest := by
      have hfirst : (lists i).head? = some x := hlinked.head.symm.trans hhead
      exact ⟨_, (List.head?_eq_some_iff.mp hfirst).choose_spec⟩
    rw [hrest, List.erase_cons_head]
    rw [hrest] at hlinked htail hnodup hothers
    have hnot := (List.nodup_cons.mp hnodup).1
    have hlast : m.head i = m.tail i ↔ rest = [] := by
      rw [hhead, htail]
      refine ⟨fun h => ?_, fun h => by rw [h]; rfl⟩
      cases rest with
      | nil => rfl
      | cons b rest =>
        rw [List.getLast?_cons_cons] at h
        exact absurd (List.mem_of_getLast? h.symm) hnot
    refine ⟨_, rfl, hm.set ?_ ?_ ?_ ?_ ?_ ?_⟩
    · split
      next h =>
        rw [hlast.mp h]
        simp [Linked]
      next h =>
        simp only [Memory.setNext_head, Memory.setHead_head, Function.update_self]
        refine hlinked.2.congr fun a ha => ?_
        have hne : a ≠ x := fun hax => hnot (hax ▸ ha)
        exact Function.update_of_ne hne _ _
    · split
      next h =>
        rw [hlast.mp h]
        simp
      next h =>
        obtain ⟨b, rest, rfl⟩ := List.exists_cons_of_ne_nil (fun hnil => h (hlast.mpr hnil))
        rw [List.getLast?_cons_cons] at htail
        exact htail
    · intro j hj
      split <;> simp [hj]
    · intro j hj a ha
      have hne : a ≠ x := by
        rintro rfl
        exact hothers j hj a ha List.mem_cons_self
      split <;> simp [hne]
    · exact fun j hj a ha ha' => hothers j hj a ha' (List.mem_cons_of_mem x ha)
    · intro a ha hfree
      by_cases hne : a = x
      · split <;> simp [hne]
      · have hnone : m.next a = none := by
          refine hm.free a fun j hj => ?_
          by_cases hji : j = i
          · rw [hji, hrest] at hj
            exact (List.mem_cons.mp hj).elim hne ha
          · exact hfree j hji hj
        split <;> simp [hne, hnone]
  · -- an item behind another one
    rw [if_neg hhead]
    have hfirst : (lists i).head? ≠ some x := fun h => hhead (hlinked.head.trans h)
    obtain ⟨front, scan, back, hsplit⟩ := exists_before hx hfirst
    rw [hsplit] at hlinked htail hnodup hothers hfuel
    have hfront : front.length < fuel := by
      rw [List.length_append, List.length_cons] at hfuel
      omega
    have hfind := findBefore_spec hlinked hfront
    rw [hfind, Option.map_some]
    have hscan : m.next scan = some x := hlinked.next_of_append
    have hne : scan ≠ x := by
      rintro rfl
      exact hlinked.next_ne_self (by simp) hscan
    have herase : (front ++ scan :: x :: back).erase x = front ++ scan :: back := by
      have hfront : x ∉ front := fun hx =>
        (List.nodup_append.mp hnodup).2.2 x hx x (by simp) rfl
      rw [List.erase_append_right _ hfront, List.erase_cons_tail (by simpa using hne),
        List.erase_cons_head]
    have hx' : x ∉ front ++ scan :: back := by
      rw [← herase]
      exact hnodup.not_mem_erase
    have hlast : m.tail i = some x ↔ back = [] := by
      rw [htail, List.getLast?_append_of_ne_nil _ (List.cons_ne_nil _ _), List.getLast?_cons_cons]
      refine ⟨fun h => ?_, fun h => by rw [h]; rfl⟩
      cases back with
      | nil => rfl
      | cons b back =>
        rw [List.getLast?_cons_cons] at h
        have hmem := List.mem_of_getLast? h
        exact absurd (List.mem_append_right front (List.mem_cons_of_mem scan hmem)) hx'
    rw [hsplit, herase]
    refine ⟨_, rfl, hm.set ?_ ?_ ?_ ?_ ?_ ?_⟩
    · have hhead' : m.head i = if m.head i = some x then m.next x else m.head i := by
        rw [if_neg hhead]
      have hnext : ∀ a ∈ front ++ scan :: x :: back, a ≠ x →
          Function.update (Function.update m.next scan (m.next x)) x none a =
            if m.next a = some x then m.next x else m.next a := by
        intro a ha hax
        rw [Function.update_of_ne hax]
        by_cases has : a = scan
        · rw [has, Function.update_self, if_pos hscan]
        · rw [Function.update_of_ne has, if_neg]
          exact fun hnext => has (hlinked.pred_unique ha (by simp) hnext hscan)
      have herased := hlinked.erase hnext hhead'
      rw [herase] at herased
      split <;> exact herased
    · split
      next h =>
        rw [hlast.mp h]
        simp
      next h =>
        obtain ⟨b, back, rfl⟩ := List.exists_cons_of_ne_nil (fun hnil => h (hlast.mpr hnil))
        simp only [Memory.setNext_tail, htail]
        rw [List.getLast?_append_of_ne_nil _ (List.cons_ne_nil _ _),
          List.getLast?_append_of_ne_nil _ (List.cons_ne_nil _ _), List.getLast?_cons_cons,
          List.getLast?_cons_cons, List.getLast?_cons_cons]
    · intro j hj
      split <;> simp [hj]
    · intro j hj a ha
      have hax : a ≠ x := by
        rintro rfl
        exact hothers j hj a ha (by simp)
      have has : a ≠ scan := by
        rintro rfl
        exact hothers j hj a ha (by simp)
      split <;> simp [hax, has]
    · intro j hj a ha ha'
      refine hothers j hj a ha' ?_
      rw [← herase] at ha
      exact List.mem_of_mem_erase ha
    · intro a ha hfree
      have has : a ≠ scan := by
        rintro rfl
        exact ha (by simp)
      by_cases hax : a = x
      · split <;> simp [hax]
      · have hnone : m.next a = none := by
          refine hm.free a fun j hj => ?_
          by_cases hji : j = i
          · rw [hji, hsplit] at hj
            exact ha (herase ▸ (List.mem_erase_of_ne hax).mpr hj)
          · exact hfree j hji hj
        split <;> simp [hax, has, hnone]

variable {item : ℕ → WorkItem}

/-- An item that no list has can be put into one. -/
theorem WellFormed.first (hm : WellFormed m lists) (hwi : ∀ j, wi ∉ lists j) (hnil : lists i = []) :
    WellFormed ((m.setHead i (some wi)).setTail i (some wi)) (Function.update lists i [wi]) := by
  have hnone := hm.free wi hwi
  refine hm.set ?_ (by simp) (fun j hj => by simp [hj]) (fun _ _ _ _ => rfl) ?_ ?_
  · exact ⟨by simp, hnone⟩
  · intro j _ a ha
    rw [List.mem_singleton.mp ha]
    exact hwi j
  · intro a _ hfree
    refine hm.free a fun j hj => ?_
    by_cases hji : j = i
    · rw [hji, hnil] at hj
      cases hj
    · exact hfree j hji hj

/-- The items of the other lists, and those of none, after one was put into a list. -/
theorem WellFormed.insert (hm : WellFormed m lists) (hwi : ∀ j, wi ∉ lists j) {front back : List ℕ}
    {scan : ℕ} (hsplit : lists i = front ++ scan :: back)
    (hnext : ∀ a, a ≠ wi → a ≠ scan → m'.next a = m.next a) (hscan : m'.next scan = some wi)
    (hnew : m'.next wi = m.next scan) (hhead : m'.head = m.head)
    (htail : m'.tail i = (front ++ scan :: wi :: back).getLast?)
    (hother : ∀ j, j ≠ i → m'.tail j = m.tail j) :
    WellFormed m' (Function.update lists i (front ++ scan :: wi :: back)) := by
  have hlinked := hm.linked i
  rw [hsplit] at hlinked
  have hnodup := hlinked.nodup
  have hne : ∀ j, ∀ a ∈ lists j, a ≠ wi := fun j a ha haw => hwi j (haw ▸ ha)
  refine hm.set ?_ htail (fun j hj => ⟨by rw [hhead], hother j hj⟩) ?_ ?_ ?_
  · rw [hhead]
    refine hlinked.insertAfter (fun c hc => hnext c ?_ ?_) hscan hnew
    · refine hne i c ?_
      rw [hsplit]
      simp only [List.mem_append, List.mem_cons] at hc ⊢
      tauto
    · rintro rfl
      rw [List.nodup_middle] at hnodup
      exact (List.nodup_cons.mp hnodup).1 hc
  · intro j hj a ha
    refine hnext a (hne j a ha) ?_
    rintro rfl
    exact hj (hm.disjoint j i a ha (by rw [hsplit]; simp))
  · intro j hj a ha ha'
    have hai : a ∈ lists i := by
      rw [hsplit]
      have haw := hne j a ha'
      simp only [List.mem_append, List.mem_cons] at ha ⊢
      tauto
    exact hj (hm.disjoint j i a ha' hai)
  · intro a ha hfree
    simp only [List.mem_append, List.mem_cons, not_or] at ha
    rw [hnext a ha.2.2.1 ha.2.1]
    refine hm.free a fun j hj => ?_
    by_cases hji : j = i
    · rw [hji, hsplit] at hj
      simp only [List.mem_append, List.mem_cons] at hj
      tauto
    · exact hfree j hji hj

theorem add_spec (hm : WellFormed m lists) (hwi : ∀ j, wi ∉ lists j) :
    ∃ m', add i wi m = some m' ∧ WellFormed m' (Function.update lists i (lists i ++ [wi])) := by
  have hnone := hm.free wi hwi
  have hlinked := hm.linked i
  have htail := hm.tail i
  rw [add, if_neg (not_not_intro hnone), hlinked.head]
  rcases List.eq_nil_or_concat (lists i) with hnil | ⟨front, last, hlast⟩
  · rw [htail, hnil]
    exact ⟨_, rfl, hm.first hwi hnil⟩
  · have hlw : wi ≠ last := by
      rintro rfl
      exact hwi i (by rw [hlast]; simp)
    rw [List.concat_eq_append] at hlast
    obtain ⟨b, hb⟩ : ∃ b, (front ++ [last]).head? = some b := by cases front <;> exact ⟨_, rfl⟩
    have hend : m.next last = none := by
      rw [hlast] at hlinked
      exact hlinked.next_of_append
    rw [htail, hlast, hb, List.getLast?_concat]
    simp only [Option.map_some]
    refine ⟨_, rfl, ?_⟩
    rw [List.append_assoc]
    refine hm.insert hwi hlast ?_ ?_ ?_ rfl ?_ ?_
    · intro a _ ha
      simp [ha]
    · simp
    · simp [hlw, hnone, hend]
    · simp
    · intro j hj
      simp [hj]

theorem insertOrdered_spec (hm : WellFormed m lists) (hwi : ∀ j, wi ∉ lists j)
    (hzero : (item wi).NowZero) (hfuel : (lists i).length ≤ fuel) :
    ∃ m', insertOrdered fuel item i wi m = some m' ∧ WellFormed m' (Function.update lists i
      (StableInsert.insert (fun a => (item a).time) wi (lists i))) := by
  have hnone := hm.free wi hwi
  have hlinked := hm.linked i
  have htail := hm.tail i
  have hcheck : ¬(((item wi).trigger = .now ∧ (item wi).actionTime ≠ 0) ∨ m.next wi ≠ none) := by
    rintro (⟨hnow, htime⟩ | hnext)
    · exact htime (hzero hnow)
    · exact hnext hnone
  rw [insertOrdered, if_neg hcheck, hlinked.head]
  match hlist : lists i with
  | [] =>
    rw [htail, hlist]
    exact ⟨_, rfl, hm.first hwi hlist⟩
  | a :: back =>
    rw [hlist] at hlinked htail hfuel
    have hsome : m.tail i ≠ none := by
      rw [htail]
      simp
    simp only [List.head?_cons, hsome, if_false]
    by_cases htime : (item wi).time < (item a).time
    · -- the new item is the first
      rw [if_pos htime, StableInsert.insert_cons, if_pos htime]
      have haw : ∀ b ∈ a :: back, b ≠ wi := by
        rintro b hb rfl
        exact hwi i (hlist ▸ hb)
      refine ⟨_, rfl, hm.set ?_ ?_ ?_ ?_ ?_ ?_⟩
      · refine ⟨by simp, ?_⟩
        have hnext : (Function.update m.next wi (some a)) wi = m.head i := by
          rw [Function.update_self, hlinked.1]
        have hrest : Linked (Function.update m.next wi (some a)) (m.head i) (a :: back) :=
          hlinked.congr fun b hb => Function.update_of_ne (haw b hb) _ _
        rw [← hnext] at hrest
        exact hrest
      · simp [htail]
      · exact fun j hj => by simp [hj]
      · intro j _ b hb
        have hbw : b ≠ wi := fun h => hwi j (h ▸ hb)
        simp [hbw]
      · intro j hj b hb hb'
        rcases List.mem_cons.mp hb with rfl | hb
        · exact hwi j hb'
        · exact hj (hm.disjoint j i b hb' (hlist ▸ hb))
      · intro b hb hfree
        have hbw : b ≠ wi := fun h => hb (h ▸ List.mem_cons_self)
        have hnext : m.next b = none := by
          refine hm.free b fun j hj => ?_
          by_cases hji : j = i
          · rw [hji, hlist] at hj
            exact hb (List.mem_cons_of_mem wi hj)
          · exact hfree j hji hj
        simp [hbw, hnext]
    · rw [if_neg htime]
      have hfirst : Linked m.next (some a) (a :: back) := hlinked.1 ▸ hlinked
      obtain ⟨mid, scan, rest, hsplit, hplace, hinsert⟩ := findPlace_spec
        (fun b => (item b).time) wi hfirst (Nat.not_lt.mp htime) hfuel
      rw [htail, hplace, Option.map_some, hinsert]
      rw [hsplit] at hlist hlinked
      have hsw : scan ≠ wi := by
        rintro rfl
        exact hwi i (by rw [hlist]; simp)
      have hrest : m.next scan = rest.head? := hlinked.next_of_append
      refine ⟨_, rfl, hm.insert hwi hlist ?_ ?_ ?_ ?_ ?_ ?_⟩
      · intro b hbw hbs
        split <;> simp [hbw, hbs]
      · split <;> simp
      · split <;> simp [hsw.symm]
      · split <;> rfl
      · rw [hsplit]
        cases rest with
        | nil => simp
        | cons c rest =>
          have hne : (mid ++ scan :: c :: rest).getLast? ≠ some scan := by
            intro hlast
            have hnodup := (List.nodup_middle.mp hlinked.nodup)
            rw [List.getLast?_append_of_ne_nil _ (List.cons_ne_nil _ _),
              List.getLast?_cons_cons] at hlast
            exact (List.nodup_cons.mp hnodup).1
              (List.mem_append_right mid (List.mem_of_getLast? hlast))
          rw [if_neg hne]
          simp only [Memory.setNext_tail, htail, hsplit]
          rw [List.getLast?_append_of_ne_nil _ (List.cons_ne_nil _ _),
            List.getLast?_append_of_ne_nil _ (List.cons_ne_nil _ _), List.getLast?_cons_cons,
            List.getLast?_cons_cons, List.getLast?_cons_cons]
      · intro j hj
        split <;> simp [hj]

theorem clearFrom_spec {kept rest : List ℕ} {passes : ℕ} (hm : WellFormed m lists)
    (hsplit : lists i = kept ++ rest) (hfuel : (lists i).length ≤ fuel)
    (hpasses : rest.length ≤ passes) :
    ∃ m', clearFrom fuel item i passes rest.head? m = some m' ∧
      WellFormed m' (Function.update lists i
        (kept ++ rest.filter fun a => !WorkList.isProgress (item a))) := by
  induction rest generalizing kept m lists passes with
  | nil =>
    have hsame : Function.update lists i (kept ++ []) = lists := by
      rw [← hsplit, Function.update_eq_self]
    exact ⟨m, by cases passes <;> rfl, by rwa [List.filter_nil, hsame]⟩
  | cons a rest ih =>
    rw [List.length_cons] at hpasses
    obtain ⟨passes, rfl⟩ := Nat.exists_eq_add_one_of_ne_zero (by omega : passes ≠ 0)
    have hlinked := hm.linked i
    rw [hsplit] at hlinked
    have hnext : m.next a = rest.head? := hlinked.next_of_append
    rw [List.head?_cons, clearFrom, hnext]
    cases hprogress : WorkList.isProgress (item a) with
    | false =>
      obtain ⟨m', hclear, hm'⟩ := ih hm
        (by simp [hsplit] : lists i = (kept ++ [a]) ++ rest) hfuel (by omega : rest.length ≤ passes)
      refine ⟨m', by simpa using hclear, ?_⟩
      rw [List.filter_cons_of_pos (by simp [hprogress])]
      simpa using hm'
    | true =>
      obtain ⟨m₁, hremove, hm₁⟩ := removeItem_spec hm (x := a) (by rw [hsplit]; simp) hfuel
      have hnot : a ∉ kept := fun ha =>
        (List.nodup_append.mp hlinked.nodup).2.2 a ha a List.mem_cons_self rfl
      have herase : (lists i).erase a = kept ++ rest := by
        rw [hsplit, List.erase_append_right _ hnot, List.erase_cons_head]
      rw [herase] at hm₁
      have hlength : (Function.update lists i (kept ++ rest) i).length ≤ fuel := by
        rw [hsplit, List.length_append, List.length_cons] at hfuel
        rw [Function.update_self, List.length_append]
        omega
      obtain ⟨m', hclear, hm'⟩ := ih hm₁ (Function.update_self ..) hlength
        (by omega : rest.length ≤ passes)
      rw [Function.update_idem] at hm'
      refine ⟨m', ?_, ?_⟩
      · simp only [if_true, hremove, Option.bind_some, hclear]
      · rwa [List.filter_cons_of_neg (by simp [hprogress])]

/-! ### Whole runs -/

omit [DecidableEq ι] in
theorem WellFormed.inList_iff (hm : WellFormed m lists) {a : ℕ} : InList m i a ↔ a ∈ lists i := by
  constructor
  · rintro ⟨l, hl, ha⟩
    rwa [hl.unique (hm.linked i)] at ha
  · exact fun ha => ⟨lists i, hm.linked i, ha⟩

omit [DecidableEq ι] in
theorem wellFormed_new : WellFormed (Memory.new : Memory ι) fun _ => [] where
  linked _ := rfl
  tail _ := rfl
  disjoint _ _ _ ha := nomatch ha
  free _ _ := rfl

theorem length_insert {α κ : Type*} [LinearOrder κ] (key : α → κ) (a : α) (l : List α) :
    (StableInsert.insert key a l).length = l.length + 1 :=
  (StableInsert.perm_insert key a l).length_eq

theorem length_apply (op : ListOp) (l : List ℕ) : (op.apply item l).length ≤ l.length + 1 := by
  cases op with
  | insertOrdered wi => exact (length_insert _ wi l).le
  | add wi => rw [ListOp.apply, List.length_append, List.length_singleton]
  | remove =>
    rw [ListOp.apply, List.length_tail]
    omega
  | clearProgress => exact (List.length_filter_le _ l).trans (Nat.le_succ _)

/-- A call does to its list what it is for, and nothing to the others. -/
theorem step_spec {c : Call ι} (hm : WellFormed m lists) (hc : Allowed m c)
    (hfuel : (lists c.list).length ≤ fuel) :
    ∃ m', step fuel c m = some m' ∧ WellFormed m' (Function.update lists c.list
      (c.op.apply c.item (lists c.list))) := by
  obtain ⟨i, op, item⟩ := c
  cases op with
  | insertOrdered wi =>
    exact insertOrdered_spec hm (fun j hj => hc.1 j (hm.inList_iff.mpr hj)) hc.2 hfuel
  | add wi => exact add_spec hm fun j hj => hc j (hm.inList_iff.mpr hj)
  | remove =>
    have hhead : m.head i ≠ none := hc
    have hlinked := hm.linked i
    match hlist : lists i with
    | [] =>
      rw [hlist] at hlinked
      exact absurd hlinked hhead
    | a :: rest =>
      rw [hlist] at hlinked
      obtain ⟨m', hremove, hm'⟩ := removeItem_spec hm
        (by rw [hlist]; exact List.mem_cons_self : a ∈ lists i) hfuel
      rw [hlist, List.erase_cons_head] at hm'
      refine ⟨m', ?_, hm'⟩
      change remove fuel i m = some m'
      rw [remove, hlinked.1]
      exact hremove
  | clearProgress =>
    obtain ⟨m', hclear, hm'⟩ :
        ∃ m', clearFrom fuel item i fuel (lists i).head? m = some m' ∧ WellFormed m'
          (Function.update lists i ([] ++ (lists i).filter fun a =>
            !WorkList.isProgress (item a))) := clearFrom_spec hm rfl hfuel hfuel
    rw [← (hm.linked i).head] at hclear
    exact ⟨m', hclear, hm'⟩

theorem Run.wellFormed (hm : Run n m) :
    ∃ lists, WellFormed m lists ∧ ∀ i, (lists i).length ≤ n := by
  induction hm with
  | new => exact ⟨fun _ => [], wellFormed_new, fun _ => le_rfl⟩
  | call hm hc hstep ih =>
    rename_i n m m' c
    obtain ⟨lists, hlists, hlength⟩ := ih
    obtain ⟨m₁, hm₁, hlists'⟩ := step_spec hlists hc (hlength c.list)
    obtain rfl := Option.some.inj (hstep.symm.trans hm₁)
    refine ⟨_, hlists', fun i => ?_⟩
    by_cases hi : i = c.list
    · subst hi
      rw [Function.update_self]
      exact (length_apply c.op _).trans (Nat.succ_le_succ (hlength _))
    · rw [Function.update_of_ne hi]
      exact (hlength i).trans (Nat.le_succ n)

/-- After any calls all lists are well formed, and each call that is made then succeeds and does
what it is for. -/
theorem run_wellFormed {c : Call ι} (hm : Run n m) (hc : Allowed m c) :
    ∃ lists m', WellFormed m lists ∧ (∀ i, m.head i = none ↔ m.tail i = none) ∧
      step n c m = some m' ∧
      WellFormed m' (Function.update lists c.list (c.op.apply c.item (lists c.list))) ∧
      (∀ wi, c.op = .insertOrdered wi →
        (lists c.list).Pairwise (fun a b => (c.item a).time ≤ (c.item b).time) →
        (c.op.apply c.item (lists c.list)).Pairwise
            (fun a b => (c.item a).time ≤ (c.item b).time) ∧
          ∃ before after, lists c.list = before ++ after ∧
            c.op.apply c.item (lists c.list) = before ++ wi :: after ∧
            (∀ a ∈ before, (c.item a).time ≤ (c.item wi).time) ∧
            ∀ a ∈ after, (c.item wi).time < (c.item a).time) ∧
      (c.op = .clearProgress → c.op.apply c.item (lists c.list) =
        (lists c.list).filter fun a => (c.item a).name ≠ "PROGRESS") := by
  obtain ⟨lists, hlists, hlength⟩ := hm.wellFormed
  obtain ⟨m', hstep, hm'⟩ := step_spec hlists hc (hlength c.list)
  refine ⟨lists, m', hlists, fun i => ?_, hstep, hm', ?_, ?_⟩
  · rw [(hlists.linked i).head, hlists.tail i, List.head?_eq_none_iff, List.getLast?_eq_none_iff]
  · intro wi hop hsorted
    rw [hop]
    exact ⟨StableInsert.pairwise_insert hsorted wi, StableInsert.insert_eq_append hsorted wi⟩
  · intro hop
    rw [hop]
    refine List.filter_congr fun a _ => ?_
    simp [WorkList.isProgress]

def stopAt (a : ℕ) : WorkItem := ⟨a, .stop, .cycleOnce, 9 - UInt64.ofNat a, 0⟩

/-- The second of two items is due before the first. -/
theorem run_insertOrdered_twice : ∃ lists m', WellFormed m' lists ∧
    step 1 ⟨(), .insertOrdered 2, stopAt⟩
      ((Memory.new.setHead () (some 1)).setTail () (some 1)) = some m' ∧
    lists () = [2, 1] := by
  have hfree : ∀ a i, ¬InList (Memory.new : Memory Unit) i a := by
    rintro a i ⟨l, hl, ha⟩
    rw [hl.eq_nil] at ha
    cases ha
  have hrun : Run 1 ((Memory.new.setHead () (some 1)).setTail () (some 1)) :=
    .call (c := ⟨(), .insertOrdered 1, stopAt⟩) .new ⟨hfree 1, fun h => nomatch h⟩ rfl
  have hin : ∀ i, ¬InList ((Memory.new.setHead () (some 1)).setTail () (some 1)) i 2 := by
    rintro i ⟨l, hl, ha⟩
    rw [hl.unique (show Linked _ _ [1] from ⟨rfl, rfl⟩)] at ha
    simp at ha
  obtain ⟨lists, m', hlists, -, hstep, hm', -⟩ :=
    run_wellFormed (c := ⟨(), .insertOrdered 2, stopAt⟩) hrun ⟨hin, fun h => nomatch h⟩
  have hone : lists () = [1] := (hlists.linked ()).unique ⟨rfl, rfl⟩
  refine ⟨_, m', hm', hstep, ?_⟩
  rw [Function.update_self, hone]
  decide

end Awb.Classic.Pointers
