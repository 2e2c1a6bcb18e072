import Awb.Lib.Folds
import Awb.Lib.StableInsert
import Mathlib.Data.BitVec
import Mathlib.Data.List.Iterate
import Mathlib.Data.List.Sort
import Mathlib.Tactic

/-! The report of basic blocks. `Commit` counts the instructions of a run and marks those at which
the addresses do not go on one after the other; `Print` cuts the table at the marks. -/

namespace Awb.BlockReport

/-- `BB_INSTR_CLASS`. -/
structure Instr (α : Type*) where
  addr : α
  name : List Char
  count : BitVec 64
  delay : BitVec 64
  breakin : Bool
  breakout : Bool
  deriving DecidableEq, Repr

/-- `BB_BLOCK_CLASS`. -/
structure Block (α : Type*) where
  addr : α
  size : ℕ
  count : BitVec 64
  delay : BitVec 64
  deriving DecidableEq, Repr

/-- The arguments of `Commit`. -/
structure Commit (α : Type*) where
  addr : α
  name : List Char
  delay : BitVec 64

/-- `BBREPORT_CLASS`; the map is kept as the list of its entries in the order of their
addresses. -/
structure Report (α : Type*) where
  lastAddr : α
  instrTable : List (Instr α)

/-- What `Print` counts. -/
structure Totals where
  blocks : ℕ
  size : ℕ
  count : BitVec 64
  delay : BitVec 64
  deriving DecidableEq, Repr

/-- The state of the walk through the table. There is no current block while its size is 0. -/
structure Walk (α : Type*) where
  totals : Totals
  curBlock : Option (Block α)
  blockTable : List (Block α)

/-- What is printed: the totals, and the blocks with a line for each of their addresses. -/
structure Printed (α : Type*) where
  totals : Totals
  blocks : List (Block α × List (Instr α))
  deriving DecidableEq, Repr

def Printed.addresses {α : Type*} (p : Printed α) : List α :=
  p.blocks.flatMap fun b => b.2.map Instr.addr

section Definitions
variable {α : Type*} [LinearOrder α]

def find (table : List (Instr α)) (addr : α) : Option (Instr α) :=
  table.find? (·.addr = addr)

def update (addr : α) (f : Instr α → Instr α) (table : List (Instr α)) : List (Instr α) :=
  table.map fun i => if i.addr = addr then f i else i

def Instr.executed (delay : BitVec 64) (i : Instr α) : Instr α :=
  { i with count := i.count + 1, delay := i.delay + delay }

def Instr.entered (i : Instr α) : Instr α := { i with breakin := true }

def Instr.left (i : Instr α) : Instr α := { i with breakout := true }

def count (c : Commit α) (table : List (Instr α)) : List (Instr α) :=
  if (find table c.addr).isSome then update c.addr (Instr.executed c.delay) table
  else StableInsert.insert Instr.addr ⟨c.addr, c.name, 1, c.delay, false, false⟩ table

def Report.commit (next : α → α) (s : Report α) (c : Commit α) : Report α where
  lastAddr := c.addr
  instrTable :=
    if c.addr ≠ next s.lastAddr then
      update s.lastAddr Instr.left (update c.addr Instr.entered (count c s.instrTable))
    else count c s.instrTable

/-- The report after a sequence of commits; `start` is the address that `lastAddr` is built with. -/
def report (next : α → α) (start : α) (commits : List (Commit α)) : Report α :=
  commits.foldl (Report.commit next) ⟨start, []⟩

/-- The current block with one more instruction. -/
def Block.extend (b : Block α) (i : Instr α) : Block α :=
  ⟨b.addr, b.size + 1, b.count + i.count, b.delay + i.delay⟩

def Totals.add (t : Totals) (new : Bool) (i : Instr α) : Totals :=
  ⟨if new then t.blocks + 1 else t.blocks, t.size + 1, t.count + i.count, t.delay + i.delay⟩

/-- Whether the block ends with an instruction in front of the rest of the table. -/
def terminate (i : Instr α) (rest : List (Instr α)) : Bool :=
  i.breakout || rest.head?.any Instr.breakin

def Walk.step (w : Walk α) (i : Instr α) (rest : List (Instr α)) : Walk α :=
  let totals := w.totals.add w.curBlock.isNone i
  let cur := (w.curBlock.getD ⟨i.addr, 0, 0, 0⟩).extend i
  if terminate i rest then
    ⟨totals, none, StableInsert.insert (fun b => b.delay.toNat) cur w.blockTable⟩
  else ⟨totals, some cur, w.blockTable⟩

def Walk.run : Walk α → List (Instr α) → Walk α
  | w, [] => w
  | w, i :: rest => (w.step i rest).run rest

def walk (table : List (Instr α)) : Walk α :=
  Walk.run ⟨⟨0, 0, 0, 0⟩, none, []⟩ table

/-- The lines of a block. The look-up of an address is asserted to succeed. -/
def printLines (next : α → α) (table : List (Instr α)) : ℕ → α → Option (List (Instr α))
  | 0, _ => some []
  | n + 1, addr =>
    (find table addr).bind fun i => (printLines next table n (next addr)).map (i :: ·)

def printBlock (next : α → α) (table : List (Instr α)) (b : Block α) :
    Option (Block α × List (Instr α)) :=
  (printLines next table b.size b.addr).map (b, ·)

def Report.print (next : α → α) (bbreportSize : ℕ) (s : Report α) : Option (Printed α) :=
  (((walk s.instrTable).blockTable.reverse.take bbreportSize).mapM
    (printBlock next s.instrTable)).map (⟨(walk s.instrTable).totals, ·⟩)

end Definitions

/-! ### What the commits say -/

section Transfers
variable {α : Type*} {l : List α} {x y : α} {p : α × α}

/-- The addresses of two commits, one right after the other. -/
def pairs (l : List α) : List (α × α) := l.zip l.tail

theorem pairs_concat : ∀ (l : List α) (y : α),
    pairs (l ++ [y]) = pairs l ++ (l.getLast?.map (·, y)).toList
  | [], _ => rfl
  | [_], _ => rfl
  | x :: z :: l, y => congrArg ((x, z) :: ·) (pairs_concat (z :: l) y)

theorem mem_pairs_concat :
    p ∈ pairs (l ++ [y]) ↔ p ∈ pairs l ∨ l.getLast? = some p.1 ∧ p.2 = y := by
  obtain ⟨x, z⟩ := p
  rw [pairs_concat, List.mem_append, Option.mem_toList, Option.map_eq_some_iff]
  simp only [Prod.mk.injEq]
  refine or_congr_right ⟨?_, ?_⟩
  · rintro ⟨a, ha, rfl, rfl⟩
    exact ⟨ha, rfl⟩
  · rintro ⟨ha, rfl⟩
    exact ⟨x, ha, rfl, rfl⟩

variable (next : α → α) (start : α)

/-- An observed transfer of control: the address of a commit is not the next one. -/
def Transfers (l : List α) (x y : α) : Prop := (x, y) ∈ pairs l ∧ y ≠ next x

/-- An instruction in front of which a commit has seen a transfer; the first commit is compared
with the address of a report without commits. -/
def Entered (l : List α) (y : α) : Prop := ∃ x, Transfers next (start :: l) x y

/-- An instruction behind which a commit has seen a transfer. -/
def Left (l : List α) (x : α) : Prop :=
  (∃ y, Transfers next l x y) ∨ l.head? = some start ∧ x = start

/-- The address that the next commit is compared with. -/
def lastOf (l : List α) : α := l.getLast?.getD start

variable {next start}

theorem getLast?_start_cons (l : List α) : (start :: l).getLast? = some (lastOf start l) := by
  rw [List.getLast?_cons, lastOf]

theorem lastOf_concat (l : List α) (y : α) : lastOf start (l ++ [y]) = y := by
  rw [lastOf, List.getLast?_concat, Option.getD_some]

theorem Entered.mem (h : Entered next start l y) : y ∈ l := by
  obtain ⟨x, hmem, -⟩ := h
  exact (List.of_mem_zip hmem).2

theorem Transfers.entered (h : Transfers next l x y) : Entered next start l y := by
  obtain ⟨hmem, hne⟩ := h
  cases l with
  | nil => cases hmem
  | cons a l => exact ⟨x, List.mem_cons_of_mem _ hmem, hne⟩

theorem Left.mem (h : Left next start l x) : x ∈ l := by
  obtain ⟨y, hmem, -⟩ | ⟨hhead, rfl⟩ := h
  · exact (List.of_mem_zip hmem).1
  · exact List.mem_of_mem_head? hhead

theorem entered_concat (l : List α) (y a : α) : Entered next start (l ++ [y]) a ↔
    Entered next start l a ∨ a = y ∧ y ≠ next (lastOf start l) := by
  rw [Entered, Entered]
  constructor
  · rintro ⟨x, hmem, hne⟩
    rw [← List.cons_append, mem_pairs_concat, getLast?_start_cons] at hmem
    obtain hmem | ⟨hx, rfl⟩ := hmem
    · exact .inl ⟨x, hmem, hne⟩
    · exact .inr ⟨rfl, Option.some.inj hx ▸ hne⟩
  · rintro (⟨x, hmem, hne⟩ | ⟨rfl, hne⟩)
    · exact ⟨x, by rw [← List.cons_append, mem_pairs_concat]; exact .inl hmem, hne⟩
    · refine ⟨lastOf start l, ?_, hne⟩
      rw [← List.cons_append, mem_pairs_concat, getLast?_start_cons]
      exact .inr ⟨rfl, rfl⟩

theorem left_concat (hstart : start ≠ next start) (l : List α) (y a : α) :
    Left next start (l ++ [y]) a ↔ Left next start l a ∨
      a = lastOf start l ∧ y ≠ next a ∧ a ∈ l ++ [y] := by
  obtain rfl | hne := eq_or_ne l []
  · have hnone : ¬Left next start [] a := fun h => List.not_mem_nil h.mem
    rw [or_iff_right hnone, List.nil_append, List.mem_singleton]
    constructor
    · rintro (⟨z, hmem, -⟩ | ⟨hy, rfl⟩)
      · exact absurd hmem List.not_mem_nil
      · obtain rfl : y = a := Option.some.inj hy
        exact ⟨rfl, hstart, rfl⟩
    · rintro ⟨ha, -, rfl⟩
      obtain rfl : a = start := ha
      exact .inr ⟨rfl, rfl⟩
  · have hlast := List.getLast?_eq_some_getLast hne
    set last := l.getLast hne
    have hlastOf : lastOf start l = last := by rw [lastOf, hlast, Option.getD_some]
    have hhead : (l ++ [y]).head? = l.head? := List.head?_append_of_ne_nil l hne
    rw [Left, Left, hhead, hlastOf, or_right_comm]
    refine or_congr_left ⟨?_, ?_⟩
    · rintro ⟨z, hmem, hz⟩
      rw [mem_pairs_concat, hlast] at hmem
      obtain hmem | ⟨ha, rfl⟩ := hmem
      · exact .inl ⟨z, hmem, hz⟩
      · obtain rfl : last = a := Option.some.inj ha
        exact .inr ⟨rfl, hz, List.mem_append_left _ (List.mem_of_getLast? hlast)⟩
    · rintro (⟨z, hmem, hz⟩ | ⟨rfl, hy, -⟩)
      · exact ⟨z, mem_pairs_concat.mpr (.inl hmem), hz⟩
      · exact ⟨y, mem_pairs_concat.mpr (.inr ⟨hlast, rfl⟩), hy⟩

end Transfers

/-! ### The table -/

section Table
variable {α : Type*} [LinearOrder α] {next : α → α} {start : α} {table : List (Instr α)}
  {commits : List (Commit α)} {c : Commit α} {i j : Instr α} {a : α}

def Commit.addrs (commits : List (Commit α)) : List α := commits.map Commit.addr

abbrev Sorted (table : List (Instr α)) : Prop := table.Pairwise fun i j => i.addr < j.addr

/-- What the table says about an address: the name from its first commit, how many commits there
were, and their delays. -/
structure Instr.Records (i : Instr α) (a : α) (commits : List (Commit α)) : Prop where
  name : (commits.find? (·.addr = a)).map Commit.name = some i.name
  count : i.count = (commits.countP (·.addr = a) : ℕ)
  delay : i.delay = ((commits.filter (·.addr = a)).map Commit.delay).sum

structure Tracks (next : α → α) (start : α) (commits : List (Commit α)) (s : Report α) : Prop where
  last : s.lastAddr = lastOf start (Commit.addrs commits)
  sorted : Sorted s.instrTable
  addrs : ∀ a, a ∈ s.instrTable.map Instr.addr ↔ a ∈ Commit.addrs commits
  breakin : ∀ i ∈ s.instrTable,
    i.breakin = true ↔ Entered next start (Commit.addrs commits) i.addr
  breakout : ∀ i ∈ s.instrTable,
    i.breakout = true ↔ Left next start (Commit.addrs commits) i.addr
  records : ∀ i ∈ s.instrTable, i.Records i.addr commits

theorem isSome_find : (find table a).isSome ↔ a ∈ table.map Instr.addr := by
  simp [find, List.find?_isSome]

theorem map_update {γ : Type*} {g : Instr α → γ} {f : Instr α → Instr α}
    (hf : ∀ i, g (f i) = g i) (a : α) (table : List (Instr α)) :
    (update a f table).map g = table.map g := by
  rw [update, List.map_map]
  refine List.map_congr_left fun i _ => ?_
  rw [Function.comp_apply]
  split_ifs
  · exact hf i
  · rfl

theorem sorted_iff : Sorted table ↔ (table.map Instr.addr).Pairwise (· < ·) :=
  List.pairwise_map.symm

theorem sorted_insert (h : Sorted table) (hnew : i.addr ∉ table.map Instr.addr) :
    Sorted (StableInsert.insert Instr.addr i table) := by
  induction table with
  | nil => exact List.pairwise_singleton _ _
  | cons first table ih =>
    obtain ⟨hfirst, htable⟩ := List.pairwise_cons.mp h
    rw [List.map_cons, List.mem_cons, not_or] at hnew
    rw [StableInsert.insert_cons]
    split_ifs with hlt
    · refine List.pairwise_cons.mpr ⟨fun j hj => ?_, h⟩
      obtain rfl | hj := List.mem_cons.mp hj
      · exact hlt
      · exact hlt.trans (hfirst j hj)
    · refine List.pairwise_cons.mpr ⟨fun j hj => ?_, ih htable hnew.2⟩
      obtain rfl | hj := (StableInsert.mem_insert _ _ _ _).mp hj
      · exact lt_of_le_of_ne (not_lt.mp hlt) (Ne.symm hnew.1)
      · exact hfirst j hj

omit [LinearOrder α] in
theorem addrs_concat (commits : List (Commit α)) (c : Commit α) :
    Commit.addrs (commits ++ [c]) = Commit.addrs commits ++ [c.addr] := List.map_append

theorem sorted_count (h : Sorted table) : Sorted (count c table) := by
  rw [count]
  split_ifs with hfind
  · rw [sorted_iff, @map_update _ _ _ _ (Instr.executed c.delay) (fun _ => rfl), ← sorted_iff]
    exact h
  · exact sorted_insert h fun hmem => hfind (isSome_find.mpr hmem)

theorem mem_addrs_count :
    a ∈ (count c table).map Instr.addr ↔ a ∈ table.map Instr.addr ∨ a = c.addr := by
  rw [count]
  split_ifs with hfind
  · rw [@map_update _ _ _ _ (Instr.executed c.delay) (fun _ => rfl)]
    refine ⟨.inl, fun h => h.elim id ?_⟩
    rintro rfl
    exact isSome_find.mp hfind
  · rw [((StableInsert.perm_insert _ _ _).map _).mem_iff, List.map_cons, List.mem_cons, or_comm]

/-- The name, the count and the delay of another address stay. -/
theorem Instr.Records.concat_of_ne (h : i.Records a commits) (hne : c.addr ≠ a) :
    i.Records a (commits ++ [c]) where
  name := by rw [List.find?_append, Option.map_or, h.name, Option.some_or]
  count := by
    rw [List.countP_append, List.countP_singleton, if_neg (by simpa using hne), h.count, add_zero]
  delay := by
    rw [List.filter_append, List.filter_singleton, decide_eq_false hne, h.delay]
    simp

theorem Instr.Records.executed (h : i.Records a commits) (heq : c.addr = a) :
    (i.executed c.delay).Records a (commits ++ [c]) where
  name := by
    rw [List.find?_append, Option.map_or, h.name, Option.some_or]
    rfl
  count := by
    rw [List.countP_append, List.countP_singleton, if_pos (by simpa using heq), Nat.cast_add,
      ← h.count]
    rfl
  delay := by
    rw [List.filter_append, List.filter_singleton, decide_eq_true heq, List.map_append,
      List.sum_append, ← h.delay]
    simp [Instr.executed]

theorem Instr.records_new (hnew : c.addr ∉ Commit.addrs commits) :
    (⟨c.addr, c.name, 1, c.delay, false, false⟩ : Instr α).Records c.addr (commits ++ [c]) := by
  have hnone : ∀ d ∈ commits, ¬d.addr = c.addr := fun d hd heq =>
    hnew (heq ▸ List.mem_map_of_mem hd)
  have hfind : commits.find? (·.addr = c.addr) = none :=
    List.find?_eq_none.mpr fun d hd => by simpa using hnone d hd
  have hfilter : commits.filter (·.addr = c.addr) = [] :=
    List.filter_eq_nil_iff.mpr fun d hd => by simpa using hnone d hd
  refine ⟨?_, ?_, ?_⟩
  · simp [List.find?_append, hfind]
  · simp [List.countP_eq_length_filter, hfilter]
  · simp [List.filter_append, hfilter]

variable {s : Report α}

/-- The marks are all that a commit changes in what it has counted. -/
theorem map_commit {γ : Type*} {g : Instr α → γ} (hentered : ∀ i : Instr α, g i.entered = g i)
    (hleft : ∀ i : Instr α, g i.left = g i) (s : Report α) (c : Commit α) :
    (s.commit next c).instrTable.map g = (count c s.instrTable).map g := by
  rw [Report.commit]
  split_ifs
  · rw [map_update hleft, map_update hentered]
  · rfl

theorem map_addr_commit (s : Report α) (c : Commit α) :
    (s.commit next c).instrTable.map Instr.addr = (count c s.instrTable).map Instr.addr :=
  map_commit (fun _ => rfl) (fun _ => rfl) s c

/-- A commit marks what it has counted. -/
theorem mem_commit (h : i ∈ (s.commit next c).instrTable) : ∃ j ∈ count c s.instrTable,
    i = ⟨j.addr, j.name, j.count, j.delay,
      j.breakin || decide (c.addr ≠ next s.lastAddr ∧ j.addr = c.addr),
      j.breakout || decide (c.addr ≠ next s.lastAddr ∧ j.addr = s.lastAddr)⟩ := by
  rw [Report.commit] at h
  split_ifs at h with hsplit
  · obtain ⟨j', hj', rfl⟩ := List.mem_map.mp h
    obtain ⟨j, hj, rfl⟩ := List.mem_map.mp hj'
    refine ⟨j, hj, ?_⟩
    by_cases hc : j.addr = c.addr <;> by_cases hlast : j.addr = s.lastAddr <;>
      simp_all [Instr.entered, Instr.left]
  · exact ⟨i, h, by simp [hsplit]⟩

/-- The marks are still those of the commits before. -/
theorem Tracks.of_mem_count (h : Tracks next start commits s) (hj : j ∈ count c s.instrTable) :
    (j.breakin = true ↔ Entered next start (Commit.addrs commits) j.addr) ∧
      (j.breakout = true ↔ Left next start (Commit.addrs commits) j.addr) ∧
      j.Records j.addr (commits ++ [c]) := by
  rw [count] at hj
  split_ifs at hj with hfind
  · obtain ⟨i, hi, rfl⟩ := List.mem_map.mp hj
    split_ifs with haddr
    · exact ⟨h.breakin i hi, h.breakout i hi, (h.records i hi).executed haddr.symm⟩
    · exact ⟨h.breakin i hi, h.breakout i hi, (h.records i hi).concat_of_ne (Ne.symm haddr)⟩
  · have hnew : c.addr ∉ Commit.addrs commits := fun hmem =>
      hfind (isSome_find.mpr ((h.addrs _).mpr hmem))
    obtain rfl | hj := (StableInsert.mem_insert _ _ _ _).mp hj
    · exact ⟨iff_of_false Bool.false_ne_true fun he => hnew he.mem,
        iff_of_false Bool.false_ne_true fun he => hnew he.mem, Instr.records_new hnew⟩
    · have hne : c.addr ≠ j.addr := fun heq =>
        hnew (heq ▸ (h.addrs _).mp (List.mem_map_of_mem hj))
      exact ⟨h.breakin j hj, h.breakout j hj, (h.records j hj).concat_of_ne hne⟩

theorem tracks_commit (hstart : start ≠ next start) (h : Tracks next start commits s)
    (c : Commit α) : Tracks next start (commits ++ [c]) (s.commit next c) where
  last := by rw [addrs_concat, lastOf_concat, Report.commit]
  sorted := by
    rw [sorted_iff, map_addr_commit, ← sorted_iff]
    exact sorted_count h.sorted
  addrs a := by
    rw [map_addr_commit, mem_addrs_count, h.addrs, addrs_concat, List.mem_append,
      List.mem_singleton]
  breakin i hi := by
    obtain ⟨j, hj, rfl⟩ := mem_commit hi
    dsimp only
    rw [Bool.or_eq_true, decide_eq_true_iff, (h.of_mem_count hj).1, addrs_concat, entered_concat,
      h.last, and_comm]
  breakout i hi := by
    obtain ⟨j, hj, rfl⟩ := mem_commit hi
    have hmem : j.addr ∈ Commit.addrs commits ++ [c.addr] := by
      have hcounted := mem_addrs_count.mp (List.mem_map_of_mem (f := Instr.addr) hj)
      rwa [h.addrs, ← List.mem_singleton, ← List.mem_append] at hcounted
    dsimp only
    rw [Bool.or_eq_true, decide_eq_true_iff, (h.of_mem_count hj).2.1, addrs_concat,
      left_concat hstart, h.last, and_iff_left hmem]
    refine or_congr_right ⟨?_, ?_⟩
    · rintro ⟨hsplit, heq⟩
      exact ⟨heq, heq ▸ hsplit⟩
    · rintro ⟨heq, hsplit⟩
      exact ⟨heq ▸ hsplit, heq⟩
  records i hi := by
    obtain ⟨j, hj, rfl⟩ := mem_commit hi
    obtain ⟨hname, hcount, hdelay⟩ := (h.of_mem_count hj).2.2
    exact ⟨hname, hcount, hdelay⟩

theorem tracks_report (hstart : start ≠ next start) (commits : List (Commit α)) :
    Tracks next start commits (report next start commits) := by
  induction commits using List.reverseRecOn with
  | nil =>
    refine ⟨rfl, .nil, fun _ => Iff.rfl, ?_, ?_, ?_⟩ <;> exact fun _ hi => absurd hi List.not_mem_nil
  | append_singleton commits c ih =>
    rw [report, List.foldl_concat]
    exact tracks_commit hstart ih c

end Table

/-! ### The parts of the table -/

section Parts
variable {α : Type*} {β : Type*} {R : β → β → Prop} {l : List β} {x y : β}

/-- More elements in front of the first part. -/
def attach (front : List β) : List (List β) → List (List β)
  | [] => [front]
  | part :: parts => (front ++ part) :: parts

theorem attach_attach (front front' : List β) (parts : List (List β)) :
    attach front (attach front' parts) = attach (front ++ front') parts := by
  cases parts with
  | nil => rfl
  | cons part parts => simp only [attach, List.append_assoc]

theorem flatten_attach (front : List β) (parts : List (List β)) :
    (attach front parts).flatten = front ++ parts.flatten := by
  cases parts with
  | nil => rfl
  | cons part parts => rw [attach, List.flatten_cons, List.flatten_cons, List.append_assoc]

theorem head_or_of_isChain (h : l.IsChain R) (hy : y ∈ l) : l.head? = some y ∨ ∃ x, R x y := by
  induction l with
  | nil => cases hy
  | cons a l ih =>
    obtain rfl | hy := List.mem_cons.mp hy
    · exact .inl rfl
    · obtain hhead | hx := ih h.tail hy
      · obtain ⟨l, rfl⟩ := List.head?_eq_some_iff.mp hhead
        exact .inr ⟨a, (List.isChain_cons_cons.mp h).1⟩
      · exact .inr hx

theorem getLast_or_of_isChain (h : l.IsChain R) (hx : x ∈ l) :
    l.getLast? = some x ∨ ∃ y, R x y := by
  have hreverse := head_or_of_isChain (List.isChain_reverse.mpr h) (List.mem_reverse.mpr hx)
  rwa [List.head?_reverse] at hreverse

/-- The table cut behind every instruction that ends a block. -/
def parts : List (Instr α) → List (List (Instr α))
  | [] => []
  | i :: rest => if terminate i rest then [i] :: parts rest else attach [i] (parts rest)

variable {table rest part : List (Instr α)} {i j : Instr α}

@[simp] theorem flatten_parts (table : List (Instr α)) : (parts table).flatten = table := by
  induction table with
  | nil => rfl
  | cons i rest ih =>
    rw [parts]
    split_ifs
    · rw [List.flatten_cons, ih, List.singleton_append]
    · rw [flatten_attach, ih, List.singleton_append]

theorem nil_notMem_parts (table : List (Instr α)) : [] ∉ parts table := by
  induction table with
  | nil => exact List.not_mem_nil
  | cons i rest ih =>
    rw [parts]
    split_ifs
    · simpa using ih
    · cases hrest : parts rest with
      | nil => simp [attach]
      | cons part others =>
        rw [hrest, List.mem_cons, not_or] at ih
        simpa [attach] using ih.2

/-- The first part starts where the table starts. -/
theorem parts_cons (i : Instr α) (rest : List (Instr α)) :
    ∃ part others, parts (i :: rest) = (i :: part) :: others := by
  rw [parts]
  split_ifs
  · exact ⟨[], _, rfl⟩
  · cases parts rest with
    | nil => exact ⟨[], [], rfl⟩
    | cons part others => exact ⟨part, others, rfl⟩

theorem not_terminate (h : ¬terminate i (j :: rest) = true) :
    i.breakout = false ∧ j.breakin = false := by
  simpa [terminate] using h

/-- Inside a part there are no marks. -/
theorem isChain_unmarked (h : part ∈ parts table) :
    part.IsChain fun i j => i.breakout = false ∧ j.breakin = false := by
  induction table generalizing part with
  | nil => cases h
  | cons i rest ih =>
    rw [parts] at h
    split_ifs at h with hend
    · obtain rfl | h := List.mem_cons.mp h
      · exact List.isChain_singleton i
      · exact ih h
    · cases rest with
      | nil =>
        obtain rfl := List.mem_singleton.mp h
        exact List.isChain_singleton i
      | cons j rest =>
        obtain ⟨first, others, hparts⟩ := parts_cons j rest
        rw [hparts] at h ih
        obtain rfl | h := List.mem_cons.mp h
        · exact List.isChain_cons_cons.mpr ⟨not_terminate hend, ih List.mem_cons_self⟩
        · exact ih (List.mem_cons_of_mem _ h)

/-- Every two neighbours that are not apart at a mark are related as those of one part are. -/
theorem isChain_parts_iff (S : Instr α → Instr α → Prop) :
    table.IsChain (fun i j => i.breakout = true ∨ j.breakin = true ∨ S i j) ↔
      ∀ part ∈ parts table, part.IsChain S := by
  induction table with
  | nil => exact iff_of_true .nil fun _ h => absurd h List.not_mem_nil
  | cons i rest ih =>
    cases rest with
    | nil =>
      have hparts : parts [i] = [[i]] := by
        rw [parts]
        split_ifs <;> rfl
      rw [hparts, List.forall_mem_singleton]
      exact iff_of_true (List.isChain_singleton i) (List.isChain_singleton i)
    | cons j rest =>
      have hparts : parts (i :: j :: rest) = if terminate i (j :: rest) then
          [i] :: parts (j :: rest) else attach [i] (parts (j :: rest)) := rfl
      rw [List.isChain_cons_cons, ih, hparts]
      split_ifs with hend
      · rw [List.forall_mem_cons, and_iff_right (List.isChain_singleton i), and_iff_right]
        obtain hout | hin := Bool.or_eq_true _ _ ▸ hend
        · exact .inl hout
        · exact .inr (.inl (by simpa using hin))
      · obtain ⟨first, others, hparts⟩ := parts_cons j rest
        obtain ⟨hout, hin⟩ := not_terminate hend
        rw [hparts, attach, List.singleton_append, List.forall_mem_cons, List.forall_mem_cons,
          List.isChain_cons_cons, hout, hin]
        simp only [Bool.false_eq_true, false_or, and_assoc]

/-! ### The walk -/

variable {w : Walk α} {b : Block α}

/-- The block of a part. -/
def blockOf (part : List (Instr α)) : Option (Block α) :=
  part.foldl (fun cur i => some ((cur.getD ⟨i.addr, 0, 0, 0⟩).extend i)) none

theorem blockOf_concat (part : List (Instr α)) (i : Instr α) :
    blockOf (part ++ [i]) = some (((blockOf part).getD ⟨i.addr, 0, 0, 0⟩).extend i) := by
  rw [blockOf, List.foldl_concat]
  rfl

theorem blockOf_cons (i : Instr α) (rest : List (Instr α)) :
    blockOf (i :: rest) = some ⟨i.addr, (i :: rest).length,
      ((i :: rest).map Instr.count).sum, ((i :: rest).map Instr.delay).sum⟩ := by
  induction rest using List.reverseRecOn with
  | nil => simp [blockOf, Block.extend]
  | append_singleton rest j ih =>
    rw [← List.cons_append, blockOf_concat, ih, Option.getD_some, Block.extend]
    simp [add_assoc]

/-- The blocks that have been begun. -/
def Walk.blocks (w : Walk α) : List (Block α) := w.blockTable ++ w.curBlock.toList

theorem Walk.length_blocks (h : w.totals.blocks = w.blocks.length) (rest : List (Instr α)) :
    (w.run rest).totals.blocks = (w.run rest).blocks.length := by
  induction rest generalizing w with
  | nil => exact h
  | cons i rest ih =>
    refine ih ?_
    have hlength : ∀ cur, (StableInsert.insert (fun b : Block α => b.delay.toNat) cur
        w.blockTable).length = w.blockTable.length + 1 := fun cur =>
      (StableInsert.perm_insert _ _ _).length_eq
    rw [blocks, List.length_append] at h
    rw [step]
    cases hcur : w.curBlock <;> split_ifs <;> simp_all [blocks, Totals.add]

theorem Walk.totals_run (w : Walk α) (rest : List (Instr α)) :
    (w.run rest).totals.size = w.totals.size + rest.length ∧
      (w.run rest).totals.count = w.totals.count + (rest.map Instr.count).sum ∧
      (w.run rest).totals.delay = w.totals.delay + (rest.map Instr.delay).sum := by
  induction rest generalizing w with
  | nil => simp [run]
  | cons i rest ih =>
    have htotals : (w.step i rest).totals = w.totals.add w.curBlock.isNone i := by
      rw [step]
      split_ifs <;> rfl
    obtain ⟨hsize, hcount, hdelay⟩ := ih (w.step i rest)
    rw [run, hsize, hcount, hdelay, htotals]
    simp [Totals.add, add_assoc, Nat.add_comm]

/-- The walk makes a block of every part. -/
theorem Walk.perm_run (h : w.curBlock = blockOf part) (rest : List (Instr α)) :
    (w.run rest).blocks.Perm
      (w.blockTable ++ (attach part (parts rest)).filterMap blockOf) := by
  induction rest generalizing w part with
  | nil =>
    rw [run, blocks, h, parts, attach]
    cases hpart : blockOf part <;> simp [hpart]
  | cons i rest ih =>
    have hblock := blockOf_concat part i
    rw [← h] at hblock
    rw [run, parts]
    split_ifs with hend
    · refine (@ih [] (w.step i rest) (by rw [step, if_pos hend]; rfl)).trans ?_
      rw [step, if_pos hend, attach, List.filterMap_cons_some hblock]
      have hparts : (attach [] (parts rest)).filterMap blockOf = (parts rest).filterMap blockOf := by
        cases parts rest <;> rfl
      rw [hparts]
      exact ((StableInsert.perm_insert _ _ _).append_right _).trans List.perm_middle.symm
    · refine (@ih (part ++ [i]) (w.step i rest) (by rw [step, if_neg hend, hblock])).trans ?_
      rw [step, if_neg hend, attach_attach]

theorem Walk.curBlock_run (w : Walk α) : ∀ {rest : List (Instr α)} (h : rest ≠ []),
    (w.run rest).curBlock = none ↔ (rest.getLast h).breakout = true
  | [i], _ => by
    rw [run, run, step, List.getLast_singleton]
    split_ifs with hend
    · exact iff_of_true rfl (by simpa [terminate] using hend)
    · exact iff_of_false (by simp) (by simpa [terminate] using hend)
  | i :: j :: rest, _ => (w.step i (j :: rest)).curBlock_run (List.cons_ne_nil j rest)

/-- No block is left open exactly if the last instruction of the table ends one. -/
theorem curBlock_walk (table : List (Instr α)) :
    (walk table).curBlock = none ↔ ∀ i ∈ table.getLast?, i.breakout = true := by
  obtain rfl | hne := eq_or_ne table []
  · simp [walk, Walk.run]
  · rw [walk, Walk.curBlock_run _ hne, List.getLast?_eq_some_getLast hne]
    simp

/-- All blocks are listed if the last instruction of the table ends one. -/
theorem length_walk_iff (table : List (Instr α)) :
    (walk table).blockTable.length = (walk table).totals.blocks ↔
      ∀ i ∈ table.getLast?, i.breakout = true := by
  have hblocks := Walk.length_blocks (w := ⟨⟨0, 0, 0, 0⟩, none, []⟩) rfl table
  rw [← walk, Walk.blocks, List.length_append] at hblocks
  rw [hblocks, ← curBlock_walk]
  cases (walk table).curBlock <;> simp

theorem perm_blocks (table : List (Instr α)) :
    (walk table).blocks.Perm ((parts table).filterMap blockOf) := by
  have hstart : (⟨⟨0, 0, 0, 0⟩, none, []⟩ : Walk α).curBlock = blockOf [] := rfl
  refine (Walk.perm_run hstart table).trans ?_
  cases parts table <;> exact .refl _

theorem perm_walk (hlast : ∀ i ∈ table.getLast?, i.breakout = true) :
    (walk table).blockTable.Perm ((parts table).filterMap blockOf) := by
  have hperm := perm_blocks table
  rw [Walk.blocks, (curBlock_walk table).mpr hlast, Option.toList_none, List.append_nil] at hperm
  exact hperm

/-- The table of the blocks is kept in the order of their delays. -/
theorem Walk.pairwise_run (h : w.blockTable.Pairwise fun b c => b.delay.toNat ≤ c.delay.toNat)
    (rest : List (Instr α)) :
    (w.run rest).blockTable.Pairwise fun b c => b.delay.toNat ≤ c.delay.toNat := by
  induction rest generalizing w with
  | nil => exact h
  | cons i rest ih =>
    refine ih ?_
    rw [step]
    split_ifs with hend
    · exact StableInsert.pairwise_insert h _
    · exact h

theorem pairwise_walk (table : List (Instr α)) :
    (walk table).blockTable.reverse.Pairwise fun b c => c.delay ≤ b.delay := by
  have hsorted := Walk.pairwise_run (w := ⟨⟨0, 0, 0, 0⟩, none, []⟩) List.Pairwise.nil table
  exact List.pairwise_reverse.mpr (hsorted.imp BitVec.le_def.mpr)

end Parts

/-! ### The lines of a block -/

section Lines
variable {α : Type*} [LinearOrder α] {next : α → α} {table lines : List (Instr α)} {n : ℕ} {a : α}
  {s : Report α} {size : ℕ} {p : Printed α}

theorem map_addr_printLines (h : printLines next table n a = some lines) :
    lines.map Instr.addr = List.iterate next a n := by
  induction n generalizing a lines with
  | zero =>
    obtain rfl : [] = lines := Option.some.inj h
    rfl
  | succ n ih =>
    obtain ⟨i, hi, h⟩ := Option.bind_eq_some_iff.mp h
    obtain ⟨rest, hrest, rfl⟩ := Option.map_eq_some_iff.mp h
    rw [List.map_cons, ih hrest, List.iterate]
    congr
    simpa using List.find?_some hi

theorem isSome_printLines (h : ∀ b ∈ List.iterate next a n, b ∈ table.map Instr.addr) :
    (printLines next table n a).isSome := by
  induction n generalizing a with
  | zero => rfl
  | succ n ih =>
    rw [List.iterate, List.forall_mem_cons] at h
    obtain ⟨i, hi⟩ := Option.isSome_iff_exists.mp (isSome_find.mpr h.1)
    rw [printLines, hi, Option.bind_some, Option.isSome_map]
    exact ih h.2

/-- What is printed are the totals and the blocks, each with the line of every address of its
run. -/
theorem print_eq_some (h : s.print next size = some p) :
    p.totals = (walk s.instrTable).totals ∧
      p.blocks.map Prod.fst = (walk s.instrTable).blockTable.reverse.take size ∧
      ∀ b ∈ p.blocks, b.2.map Instr.addr = List.iterate next b.1.addr b.1.size := by
  obtain ⟨blocks, hblocks, rfl⟩ := Option.map_eq_some_iff.mp h
  have hall := List.forall₂_of_mapM hblocks
  refine ⟨rfl, ?_, ?_⟩
  · dsimp only
    generalize (walk s.instrTable).blockTable.reverse.take size = listed at hall
    clear hblocks h
    induction hall with
    | nil => rfl
    | cons hb _ ih =>
      obtain ⟨lines, -, rfl⟩ := Option.map_eq_some_iff.mp hb
      rw [List.map_cons, ih]
  · intro b hb
    obtain ⟨k, hk⟩ := List.mem_iff_getElem?.mp hb
    obtain ⟨b', -, hb'⟩ := List.getElem?_of_mapM hblocks hk
    obtain ⟨lines, hlines, rfl⟩ := Option.map_eq_some_iff.mp hb'
    exact map_addr_printLines hlines

theorem isSome_print (h : ∀ b ∈ (walk s.instrTable).blockTable,
    ∀ a ∈ List.iterate next b.addr b.size, a ∈ s.instrTable.map Instr.addr) :
    (s.print next size).isSome := by
  rw [Report.print, Option.isSome_map, List.isSome_mapM_iff]
  intro b hb
  rw [printBlock, Option.isSome_map]
  exact isSome_printLines (h b (List.mem_reverse.mp (List.mem_of_mem_take hb)))

end Lines

/-! ### Blocks and runs -/

section Runs
variable {α : Type*} [LinearOrder α] {next : α → α} {table part : List (Instr α)} {i : Instr α}

/-- The addresses that are looked up for a block. -/
def Block.run (next : α → α) (b : Block α) : List α := List.iterate next b.addr b.size

omit [LinearOrder α] in
theorem map_addr_eq_iterate_iff (i : Instr α) (rest : List (Instr α)) :
    (i :: rest).map Instr.addr = List.iterate next i.addr (i :: rest).length ↔
      (i :: rest).IsChain fun i j => j.addr = next i.addr := by
  induction rest generalizing i with
  | nil => exact iff_of_true rfl (List.isChain_singleton i)
  | cons j rest ih =>
    rw [List.isChain_cons_cons, ← ih, List.map_cons, List.length_cons, List.iterate,
      List.cons.injEq, eq_self, true_and]
    constructor
    · intro h
      have hhead : j.addr = next i.addr := (List.cons.inj h).1
      exact ⟨hhead, hhead ▸ h⟩
    · rintro ⟨hhead, h⟩
      rw [h, hhead]

omit [LinearOrder α] in
/-- The run of the block of a part. -/
theorem blockOf_run (next : α → α) (hpart : part ≠ []) : ∃ b, blockOf part = some b ∧
    (b.run next).length = part.length ∧ (b.run next = part.map Instr.addr ↔
      part.IsChain fun i j => j.addr = next i.addr) := by
  obtain ⟨i, rest, rfl⟩ := List.exists_cons_of_ne_nil hpart
  refine ⟨_, blockOf_cons i rest, List.length_iterate _ _ _, ?_⟩
  rw [← map_addr_eq_iterate_iff, Block.run, eq_comm]

theorem isChain_iterate (hnext : ∀ a, a < next a) (a : α) (n : ℕ) :
    (List.iterate next a n).IsChain (· < ·) := by
  induction n generalizing a with
  | zero => exact .nil
  | succ n ih =>
    cases n with
    | zero => exact List.isChain_singleton a
    | succ n => exact List.isChain_cons_cons.mpr ⟨hnext a, ih (next a)⟩

theorem le_of_mem_iterate (hnext : ∀ a, a < next a) {a b : α} {n : ℕ}
    (h : b ∈ List.iterate next a n) : a ≤ b := by
  induction n generalizing a with
  | zero => cases h
  | succ n ih =>
    obtain rfl | h := List.mem_cons.mp h
    · exact le_rfl
    · exact (hnext a).le.trans (ih h)

/-- If the runs of the blocks have all addresses of the parts, each has those of its own part: an
address before the next part can only be in the run of the part itself. -/
theorem isChain_of_covered (hnext : ∀ a, a < next a) {ps : List (List (Instr α))} (hne : [] ∉ ps)
    (hsorted : Sorted ps.flatten)
    (hcovered : ∀ i ∈ ps.flatten, i.addr ∈ (ps.filterMap blockOf).flatMap (Block.run next)) :
    ∀ part ∈ ps, part.IsChain fun i j => j.addr = next i.addr := by
  induction ps with
  | nil => exact fun _ h => absurd h List.not_mem_nil
  | cons part others ih =>
    rw [List.mem_cons, not_or] at hne
    rw [List.flatten_cons] at hsorted hcovered
    obtain ⟨hpart, hothers, hbefore⟩ := List.pairwise_append.mp hsorted
    obtain ⟨b, hb, hlength, hrun⟩ := blockOf_run next (Ne.symm hne.1)
    rw [List.filterMap_cons_some hb, List.flatMap_cons] at hcovered
    have hsub : part.map Instr.addr ⊆ b.run next := by
      intro a ha
      obtain ⟨i, hi, rfl⟩ := List.mem_map.mp ha
      obtain hmem | hmem := List.mem_append.mp (hcovered i (List.mem_append_left _ hi))
      · exact hmem
      · obtain ⟨b', hb', hmem⟩ := List.mem_flatMap.mp hmem
        obtain ⟨part', hpart', hblock⟩ := List.mem_filterMap.mp hb'
        obtain ⟨j, rest, rfl⟩ := List.exists_cons_of_ne_nil
          fun h : part' = [] => hne.2 (h ▸ hpart')
        obtain rfl := Option.some.inj ((blockOf_cons j rest).symm.trans hblock)
        have hlt := hbefore i hi j (List.mem_flatten.mpr ⟨_, hpart', List.mem_cons_self⟩)
        exact absurd (le_of_mem_iterate hnext hmem) hlt.not_ge
    have hlt : (part.map Instr.addr).Pairwise (· < ·) := sorted_iff.mp hpart
    have hperm : (part.map Instr.addr).Perm (b.run next) :=
      (List.subperm_of_subset (hlt.imp fun h => h.ne) hsub).perm_of_length_le
        (by rw [hlength, List.length_map])
    have heq : part.map Instr.addr = b.run next :=
      hperm.eq_of_pairwise' hlt (List.isChain_iff_pairwise.mp (isChain_iterate hnext _ _))
    refine List.forall_mem_cons.mpr ⟨hrun.mp heq.symm, ih hne.2 hothers fun j hj => ?_⟩
    refine (List.mem_append.mp (hcovered j (List.mem_append_right _ hj))).resolve_left fun hmem => ?_
    rw [← heq] at hmem
    obtain ⟨i, hi, haddr⟩ := List.mem_map.mp hmem
    exact (hbefore i hi j hj).ne haddr

omit [LinearOrder α] in
/-- The runs of the blocks, if every part is one. -/
theorem flatMap_run (hne : [] ∉ parts table)
    (hchain : ∀ part ∈ parts table, part.IsChain fun i j => j.addr = next i.addr) :
    ((parts table).filterMap blockOf).flatMap (Block.run next) = table.map Instr.addr := by
  have hparts : ∀ ps : List (List (Instr α)), [] ∉ ps →
      (∀ part ∈ ps, part.IsChain fun i j => j.addr = next i.addr) →
      (ps.filterMap blockOf).flatMap (Block.run next) = ps.flatten.map Instr.addr := by
    intro ps hne hchain
    induction ps with
    | nil => rfl
    | cons part others ih =>
      rw [List.mem_cons, not_or] at hne
      rw [List.forall_mem_cons] at hchain
      obtain ⟨b, hb, -, hrun⟩ := blockOf_run next (Ne.symm hne.1)
      rw [List.filterMap_cons_some hb, List.flatMap_cons, ih hne.2 hchain.2, hrun.mpr hchain.1,
        List.flatten_cons, List.map_append]
  rw [hparts _ hne hchain, flatten_parts]

end Runs

/-! ### What the report shows -/

section Report
variable {α : Type*} [LinearOrder α] {next : α → α} {start : α} {commits : List (Commit α)}
  {s : Report α} {p : Printed α} {size : ℕ} {table : List (Instr α)}

/-- The listed blocks are runs that have every committed address once, with the totals, and no
observed transfer goes into the middle of one or out of it. -/
structure Lists (next : α → α) (addrs : List α) (p : Printed α) : Prop where
  length : p.blocks.length = p.totals.blocks
  nodup : p.addresses.Nodup
  mem : ∀ a, a ∈ p.addresses ↔ a ∈ addrs
  run : ∀ b ∈ p.blocks, b.2.map Instr.addr = b.1.run next
  size : (p.blocks.map fun b => b.1.size).sum = p.totals.size
  count : (p.blocks.map fun b => b.1.count).sum = p.totals.count
  delay : (p.blocks.map fun b => b.1.delay).sum = p.totals.delay
  transfers : ∀ x y, Transfers next addrs x y → ∀ b ∈ p.blocks,
    (y ∈ b.1.run next → (b.1.run next).head? = some y) ∧
      (x ∈ b.1.run next → (b.1.run next).getLast? = some x)

/-- The commits left the last address, and left or entered where the addresses do not go on. -/
structure Bounded (next : α → α) (start : α) (addrs : List α) : Prop where
  last : ∀ a ∈ addrs, (∀ b ∈ addrs, b ≤ a) → Left next start addrs a
  gaps : ∀ a ∈ addrs, ∀ b ∈ addrs, a < b → (∀ c ∈ addrs, c ≤ a ∨ b ≤ c) → b ≠ next a →
    Left next start addrs a ∨ Entered next start addrs b

theorem le_getLast (h : Sorted table) {i j : Instr α} (hlast : table.getLast? = some i)
    (hj : j ∈ table) : j.addr ≤ i.addr := by
  obtain ⟨front, rfl⟩ := List.getLast?_eq_some_iff.mp hlast
  obtain hj | hj := List.mem_append.mp hj
  · exact ((List.pairwise_append.mp h).2.2 j hj i (List.mem_singleton_self i)).le
  · rw [List.mem_singleton.mp hj]

/-- A relation of neighbours is one of entries with none between them. -/
theorem isChain_iff_of_sorted {R : Instr α → Instr α → Prop} (h : Sorted table) :
    table.IsChain R ↔ ∀ i ∈ table, ∀ j ∈ table, i.addr < j.addr →
      (∀ k ∈ table, k.addr ≤ i.addr ∨ j.addr ≤ k.addr) → R i j := by
  induction table with
  | nil => exact iff_of_true .nil fun _ h => absurd h List.not_mem_nil
  | cons i table ih =>
    obtain ⟨hfirst, htable⟩ := List.pairwise_cons.mp h
    cases table with
    | nil =>
      refine iff_of_true (List.isChain_singleton i) fun a ha b hb hlt => ?_
      rw [List.mem_singleton.mp ha, List.mem_singleton.mp hb] at hlt
      exact absurd hlt (lt_irrefl _)
    | cons j table =>
      have hj := hfirst j List.mem_cons_self
      rw [List.isChain_cons_cons, ih htable]
      constructor
      · rintro ⟨hij, hrest⟩ a ha b hb hlt hnone
        obtain rfl | ha := List.mem_cons.mp ha
        · have hb' := (List.mem_cons.mp hb).resolve_left fun heq => by simp [heq] at hlt
          obtain rfl | hb' := List.mem_cons.mp hb'
          · exact hij
          · have hjb := (List.pairwise_cons.mp htable).1 b hb'
            obtain hle | hle := hnone j (List.mem_cons_of_mem _ List.mem_cons_self)
            · exact absurd hle hj.not_ge
            · exact absurd hle hjb.not_ge
        · have hb' := (List.mem_cons.mp hb).resolve_left fun heq =>
            absurd (hfirst a ha) (heq ▸ hlt.not_gt)
          exact hrest a ha b hb' hlt fun k hk => hnone k (List.mem_cons_of_mem _ hk)
      · intro hall
        refine ⟨hall i List.mem_cons_self j (List.mem_cons_of_mem _ List.mem_cons_self) hj
          fun k hk => ?_, fun a ha b hb hlt hnone => ?_⟩
        · obtain rfl | hk := List.mem_cons.mp hk
          · exact .inl le_rfl
          · obtain rfl | hk := List.mem_cons.mp hk
            · exact .inr le_rfl
            · exact .inr ((List.pairwise_cons.mp htable).1 k hk).le
        · refine hall a (List.mem_cons_of_mem _ ha) b (List.mem_cons_of_mem _ hb) hlt fun k hk => ?_
          obtain rfl | hk := List.mem_cons.mp hk
          · exact .inl (hfirst a ha).le
          · exact hnone k hk

theorem Tracks.exists_mem (h : Tracks next start commits s) {a : α}
    (ha : a ∈ Commit.addrs commits) : ∃ i ∈ s.instrTable, i.addr = a :=
  List.mem_map.mp ((h.addrs a).mpr ha)

theorem Tracks.mem_addrs (h : Tracks next start commits s) {i : Instr α}
    (hi : i ∈ s.instrTable) : i.addr ∈ Commit.addrs commits :=
  (h.addrs _).mp (List.mem_map_of_mem hi)

theorem Tracks.last_iff (h : Tracks next start commits s) :
    (∀ i ∈ s.instrTable.getLast?, i.breakout = true) ↔ ∀ a ∈ Commit.addrs commits,
      (∀ b ∈ Commit.addrs commits, b ≤ a) → Left next start (Commit.addrs commits) a := by
  constructor
  · intro hlast a ha hgreatest
    obtain ⟨i, hi, rfl⟩ := h.exists_mem ha
    have hsome := List.getLast?_eq_some_getLast (List.ne_nil_of_mem hi)
    have hmem := List.mem_of_getLast? hsome
    have heq : i.addr = (s.instrTable.getLast (List.ne_nil_of_mem hi)).addr :=
      (le_getLast h.sorted hsome hi).antisymm (hgreatest _ (h.mem_addrs hmem))
    rw [heq]
    exact (h.breakout _ hmem).mp (hlast _ hsome)
  · intro hleft i hi
    have hmem := List.mem_of_getLast? hi
    refine (h.breakout i hmem).mpr (hleft _ (h.mem_addrs hmem) fun b hb => ?_)
    obtain ⟨j, hj, rfl⟩ := h.exists_mem hb
    exact le_getLast h.sorted hi hj

theorem Tracks.gaps_iff (h : Tracks next start commits s) :
    (s.instrTable.IsChain fun i j => i.breakout = true ∨ j.breakin = true ∨ j.addr = next i.addr) ↔
      ∀ a ∈ Commit.addrs commits, ∀ b ∈ Commit.addrs commits, a < b →
        (∀ c ∈ Commit.addrs commits, c ≤ a ∨ b ≤ c) → b ≠ next a →
        Left next start (Commit.addrs commits) a ∨ Entered next start (Commit.addrs commits) b := by
  rw [isChain_iff_of_sorted h.sorted]
  constructor
  · intro hall a ha b hb hlt hnone hne
    obtain ⟨i, hi, rfl⟩ := h.exists_mem ha
    obtain ⟨j, hj, rfl⟩ := h.exists_mem hb
    have hmarks := hall i hi j hj hlt fun k hk => hnone _ (h.mem_addrs hk)
    rw [h.breakout i hi, h.breakin j hj, ← or_assoc] at hmarks
    exact hmarks.resolve_right hne
  · intro hgaps i hi j hj hlt hnone
    rw [h.breakout i hi, h.breakin j hj, ← or_assoc, or_iff_not_imp_right]
    refine hgaps _ (h.mem_addrs hi) _ (h.mem_addrs hj) hlt fun c hc => ?_
    obtain ⟨k, hk, rfl⟩ := h.exists_mem hc
    exact hnone k hk

omit [LinearOrder α] in
/-- The blocks of the parts have all that is counted. -/
theorem sums_parts (ps : List (List (Instr α))) (hne : [] ∉ ps) :
    ((ps.filterMap blockOf).map Block.size).sum = ps.flatten.length ∧
      ((ps.filterMap blockOf).map Block.count).sum = (ps.flatten.map Instr.count).sum ∧
      ((ps.filterMap blockOf).map Block.delay).sum = (ps.flatten.map Instr.delay).sum := by
  induction ps with
  | nil => exact ⟨rfl, rfl, rfl⟩
  | cons part others ih =>
    rw [List.mem_cons, not_or] at hne
    obtain ⟨hsize, hcount, hdelay⟩ := ih hne.2
    obtain ⟨i, rest, rfl⟩ := List.exists_cons_of_ne_nil (Ne.symm hne.1)
    have hblocks := List.filterMap_cons_some (l := others) (blockOf_cons i rest)
    rw [hblocks, List.flatten_cons]
    refine ⟨?_, ?_, ?_⟩
    · rw [List.map_cons, List.sum_cons, hsize, List.length_append]
    · rw [List.map_cons, List.sum_cons, hcount, List.map_append, List.sum_append]
    · rw [List.map_cons, List.sum_cons, hdelay, List.map_append, List.sum_append]

omit [LinearOrder α] in
theorem Printed.addresses_eq (hrun : ∀ b ∈ p.blocks, b.2.map Instr.addr = b.1.run next) :
    p.addresses = (p.blocks.map Prod.fst).flatMap (Block.run next) := by
  rw [Printed.addresses, List.flatMap_map]
  exact List.flatMap_congr hrun

omit [LinearOrder α] in
/-- If all blocks are listed, they are those of the parts. -/
theorem perm_listed (hsize : (walk s.instrTable).totals.blocks ≤ size)
    (hlast : ∀ i ∈ s.instrTable.getLast?, i.breakout = true)
    (hfst : p.blocks.map Prod.fst = (walk s.instrTable).blockTable.reverse.take size) :
    (p.blocks.map Prod.fst).Perm ((parts s.instrTable).filterMap blockOf) := by
  have hlength := (length_walk_iff s.instrTable).mpr hlast
  rw [hfst, List.take_of_length_le (by rw [List.length_reverse]; omega)]
  exact (List.reverse_perm _).trans (perm_walk hlast)

omit [LinearOrder α] in
theorem totals_walk (table : List (Instr α)) :
    (walk table).totals.size = table.length ∧
      (walk table).totals.count = (table.map Instr.count).sum ∧
      (walk table).totals.delay = (table.map Instr.delay).sum := by
  obtain ⟨hsize, hcount, hdelay⟩ := Walk.totals_run ⟨⟨0, 0, 0, 0⟩, none, []⟩ table
  exact ⟨hsize.trans (Nat.zero_add _), hcount.trans (zero_add _), hdelay.trans (zero_add _)⟩

theorem length_listed (hsize : (walk s.instrTable).totals.blocks ≤ size)
    (hprint : s.print next size = some p) :
    p.blocks.length = p.totals.blocks ↔ ∀ i ∈ s.instrTable.getLast?, i.breakout = true := by
  obtain ⟨htotals, hfst, -⟩ := print_eq_some hprint
  have hlength : p.blocks.length = min size (walk s.instrTable).blockTable.length := by
    rw [← List.length_map (f := Prod.fst), hfst, List.length_take, List.length_reverse]
  have hblocks := Walk.length_blocks (w := ⟨⟨0, 0, 0, 0⟩, none, []⟩) rfl s.instrTable
  rw [← walk, Walk.blocks, List.length_append] at hblocks
  rw [← length_walk_iff, hlength, htotals]
  omega

/-- A part has its marks at its ends. -/
theorem Tracks.ends (h : Tracks next start commits s) {part : List (Instr α)}
    (hpart : part ∈ parts s.instrTable) {x y : α}
    (hxy : Transfers next (Commit.addrs commits) x y) :
    (y ∈ part.map Instr.addr → (part.map Instr.addr).head? = some y) ∧
      (x ∈ part.map Instr.addr → (part.map Instr.addr).getLast? = some x) := by
  have hmem : ∀ i ∈ part, i ∈ s.instrTable := fun i hi => by
    rw [← flatten_parts s.instrTable]
    exact List.mem_flatten.mpr ⟨part, hpart, hi⟩
  have hchain := isChain_unmarked hpart
  refine ⟨fun hy => ?_, fun hx => ?_⟩
  · obtain ⟨j, hj, rfl⟩ := List.mem_map.mp hy
    have hmark := (h.breakin j (hmem j hj)).mpr hxy.entered
    obtain hhead | ⟨i, -, hin⟩ := head_or_of_isChain hchain hj
    · rw [List.head?_map, hhead, Option.map_some]
    · rw [hmark] at hin
      cases hin
  · obtain ⟨i, hi, rfl⟩ := List.mem_map.mp hx
    have hmark := (h.breakout i (hmem i hi)).mpr (.inl ⟨y, hxy⟩)
    obtain hlast | ⟨j, hout, -⟩ := getLast_or_of_isChain hchain hi
    · rw [List.getLast?_map, hlast, Option.map_some]
    · rw [hmark] at hout
      cases hout

theorem lists_of_bounded (h : Tracks next start commits s)
    (hsize : (walk s.instrTable).totals.blocks ≤ size)
    (hbounded : Bounded next start (Commit.addrs commits)) :
    ∃ p, s.print next size = some p ∧ Lists next (Commit.addrs commits) p := by
  have hlast := h.last_iff.mpr hbounded.last
  have hne := nil_notMem_parts s.instrTable
  have hchain := (isChain_parts_iff _).mp (h.gaps_iff.mpr hbounded.gaps)
  have hrun := flatMap_run hne hchain
  have hprint : (s.print next size).isSome := by
    refine isSome_print fun b hb a ha => ?_
    rw [← hrun]
    exact List.mem_flatMap.mpr ⟨b, (perm_walk hlast).mem_iff.mp hb, ha⟩
  obtain ⟨p, hp⟩ := Option.isSome_iff_exists.mp hprint
  obtain ⟨htotals, hfst, hlines⟩ := print_eq_some hp
  have hperm := perm_listed hsize hlast hfst
  have haddresses : p.addresses.Perm (s.instrTable.map Instr.addr) := by
    rw [Printed.addresses_eq hlines, ← hrun]
    exact hperm.flatMap_right _
  obtain ⟨hsizes, hcounts, hdelays⟩ := sums_parts _ hne
  rw [flatten_parts] at hsizes hcounts hdelays
  obtain ⟨htsize, htcount, htdelay⟩ := totals_walk s.instrTable
  refine ⟨p, hp, (length_listed hsize hp).mpr hlast, ?_, fun a => ?_, hlines, ?_, ?_, ?_,
    fun x y hxy b hb => ?_⟩
  · exact haddresses.nodup_iff.mpr ((sorted_iff.mp h.sorted).imp fun hlt => hlt.ne)
  · rw [haddresses.mem_iff, h.addrs]
  · rw [htotals, htsize, ← hsizes, ← (hperm.map _).sum_eq, List.map_map]
    rfl
  · rw [htotals, htcount, ← hcounts, ← (hperm.map _).sum_eq, List.map_map]
    rfl
  · rw [htotals, htdelay, ← hdelays, ← (hperm.map _).sum_eq, List.map_map]
    rfl
  · obtain ⟨part, hpart, hblock⟩ :=
      List.mem_filterMap.mp (hperm.mem_iff.mp (List.mem_map_of_mem hb))
    obtain ⟨b', hb', -, hb'run⟩ := blockOf_run next fun heq : part = [] => hne (heq ▸ hpart)
    obtain rfl := Option.some.inj (hb'.symm.trans hblock)
    rw [hb'run.mpr (hchain part hpart)]
    exact h.ends hpart hxy

theorem bounded_of_lists (hnext : ∀ a, a < next a) (h : Tracks next start commits s)
    (hsize : (walk s.instrTable).totals.blocks ≤ size) (hprint : s.print next size = some p)
    (hlists : Lists next (Commit.addrs commits) p) : Bounded next start (Commit.addrs commits) := by
  have hlast := (length_listed hsize hprint).mp hlists.length
  obtain ⟨-, hfst, hlines⟩ := print_eq_some hprint
  have hperm := perm_listed hsize hlast hfst
  have hne := nil_notMem_parts s.instrTable
  refine ⟨h.last_iff.mp hlast, h.gaps_iff.mp ((isChain_parts_iff _).mpr ?_)⟩
  refine isChain_of_covered hnext hne (by rw [flatten_parts]; exact h.sorted) fun i hi => ?_
  rw [flatten_parts] at hi
  have hmem := (hlists.mem i.addr).mpr (h.mem_addrs hi)
  rw [Printed.addresses_eq hlines] at hmem
  exact (hperm.flatMap_right _).mem_iff.mp hmem

/-- Printed with room for all blocks, the report lists the blocks of a sequence of commits exactly
if the commits left the last address, and saw a transfer at every gap. -/
theorem print_lists_iff (hnext : ∀ a, a < next a) (start : α) (commits : List (Commit α))
    (hsize : (walk (report next start commits).instrTable).totals.blocks ≤ size) :
    (∃ p, (report next start commits).print next size = some p ∧
      Lists next (Commit.addrs commits) p) ↔ Bounded next start (Commit.addrs commits) := by
  have htracks := tracks_report (hnext start).ne commits
  constructor
  · rintro ⟨p, hprint, hlists⟩
    exact bounded_of_lists hnext htracks hsize hprint hlists
  · exact lists_of_bounded htracks hsize

end Report

/-- Two instructions in a loop. -/
theorem lists_loop : ∃ p, (report (· + 4) 0 [⟨8, [], 1⟩, ⟨12, [], 2⟩, ⟨8, [], 3⟩]).print (· + 4) 1 =
    some p ∧ Lists (· + 4) (Commit.addrs [⟨8, [], 1⟩, ⟨12, [], 2⟩, ⟨(8 : ℕ), [], 3⟩]) p := by
  refine (print_lists_iff (fun a => by omega) 0 _ (by decide)).mpr ⟨?_, ?_⟩
  · intro a ha hgreatest
    have h12 := hgreatest 12 (by decide)
    simp [Commit.addrs] at ha
    obtain rfl : a = 12 := by omega
    exact .inl ⟨8, by decide, by decide⟩
  · intro a ha b hb hlt hnone hne
    simp [Commit.addrs] at ha hb
    omega

/-- The block that ends with the last address of a run without a jump behind it is not listed. -/
theorem not_lists_single : ∃ commits : List (Commit ℕ), ∃ size,
    (walk (report (· + 4) 0 commits).instrTable).totals.blocks ≤ size ∧
      ¬∃ p, (report (· + 4) 0 commits).print (· + 4) size = some p ∧
        Lists (· + 4) (Commit.addrs commits) p := by
  refine ⟨[⟨8, [], 1⟩], 1, by decide, ?_⟩
  rintro ⟨p, hp, hlists⟩
  have hblocks : p = ⟨⟨1, 1, 1, 1⟩, []⟩ := Option.some.inj (hp.symm.trans (by decide))
  have hlength := hlists.length
  rw [hblocks] at hlength
  cases hlength

/-! ### What the report counts -/

section Counts
variable {α : Type*} [LinearOrder α] {next : α → α} {start : α} {table lines : List (Instr α)}
  {commits : List (Commit α)} {c : Commit α} {s : Report α} {p : Printed α} {size n : ℕ} {a : α}

theorem sum_update {g : Instr α → BitVec 64} {f : Instr α → Instr α} {d : BitVec 64}
    (hf : ∀ i, g (f i) = g i + d) (hsorted : Sorted table) (ha : a ∈ table.map Instr.addr) :
    ((update a f table).map g).sum = (table.map g).sum + d := by
  induction table with
  | nil => cases ha
  | cons i table ih =>
    obtain ⟨hfirst, hsorted⟩ := List.pairwise_cons.mp hsorted
    rw [update, List.map_cons, ← update, List.map_cons, List.map_cons, List.sum_cons, List.sum_cons]
    by_cases hi : i.addr = a
    · have hother : update a f table = table := by
        refine (List.map_congr_left fun j hj => if_neg ?_).trans (List.map_id table)
        exact hi ▸ (hfirst j hj).ne'
      rw [if_pos hi, hf, hother, add_right_comm]
    · rw [if_neg hi, ih hsorted ((List.mem_cons.mp ha).resolve_left (Ne.symm hi)), add_assoc]

/-- A commit is counted once, with its delay. -/
theorem sum_count (hsorted : Sorted table) :
    ((count c table).map Instr.count).sum = (table.map Instr.count).sum + 1 ∧
      ((count c table).map Instr.delay).sum = (table.map Instr.delay).sum + c.delay := by
  rw [count]
  split_ifs with hfind
  · have hmem := isSome_find.mp hfind
    exact ⟨sum_update (fun _ => rfl) hsorted hmem, sum_update (fun _ => rfl) hsorted hmem⟩
  · have hperm := fun i => StableInsert.perm_insert Instr.addr i table
    rw [((hperm _).map _).sum_eq, ((hperm _).map _).sum_eq]
    exact ⟨add_comm _ _, add_comm _ _⟩

theorem sum_report (hstart : start ≠ next start) (commits : List (Commit α)) :
    ((report next start commits).instrTable.map Instr.count).sum = (commits.length : ℕ) ∧
      ((report next start commits).instrTable.map Instr.delay).sum =
        (commits.map Commit.delay).sum := by
  induction commits using List.reverseRecOn with
  | nil => exact ⟨rfl, rfl⟩
  | append_singleton commits c ih =>
    obtain ⟨hcount, hdelay⟩ := @sum_count _ _ _ c (tracks_report hstart commits).sorted
    rw [report, List.foldl_concat, ← report, map_commit (fun _ => rfl) (fun _ => rfl), hcount,
      map_commit (fun _ => rfl) (fun _ => rfl), hdelay, ih.1, ih.2, List.length_append,
      List.map_append, List.sum_append]
    simp

theorem printLines_subset (h : printLines next table n a = some lines) : lines ⊆ table := by
  induction n generalizing a lines with
  | zero =>
    obtain rfl : [] = lines := Option.some.inj h
    exact List.nil_subset _
  | succ n ih =>
    obtain ⟨i, hi, h⟩ := Option.bind_eq_some_iff.mp h
    obtain ⟨rest, hrest, rfl⟩ := Option.map_eq_some_iff.mp h
    exact List.cons_subset.mpr ⟨List.mem_of_find?_eq_some hi, ih hrest⟩

theorem lines_subset (h : s.print next size = some p) : ∀ b ∈ p.blocks, b.2 ⊆ s.instrTable := by
  intro b hb
  obtain ⟨blocks, hblocks, rfl⟩ := Option.map_eq_some_iff.mp h
  obtain ⟨k, hk⟩ := List.mem_iff_getElem?.mp hb
  obtain ⟨b', -, hb'⟩ := List.getElem?_of_mapM hblocks hk
  obtain ⟨lines, hlines, rfl⟩ := Option.map_eq_some_iff.mp hb'
  exact printLines_subset hlines

/-- The totals are those of the commits, whatever blocks are listed, and every line shows the
commits of its address. -/
theorem print_counts (hstart : start ≠ next start)
    (hprint : (report next start commits).print next size = some p) :
    p.totals.size = (Commit.addrs commits).dedup.length ∧
      p.totals.count = (commits.length : ℕ) ∧
      p.totals.delay = (commits.map Commit.delay).sum ∧
      ∀ b ∈ p.blocks, ∀ i ∈ b.2, i.Records i.addr commits := by
  have h := tracks_report hstart commits
  obtain ⟨htotals, -, -⟩ := print_eq_some hprint
  obtain ⟨hsize, hcount, hdelay⟩ := totals_walk (report next start commits).instrTable
  obtain ⟨hcommits, hdelays⟩ := sum_report hstart commits
  have hperm : ((report next start commits).instrTable.map Instr.addr).Perm
      (Commit.addrs commits).dedup :=
    (List.perm_ext_iff_of_nodup ((sorted_iff.mp h.sorted).imp fun hlt => hlt.ne)
      (List.nodup_dedup _)).mpr fun a => by rw [h.addrs, List.mem_dedup]
  refine ⟨?_, ?_, ?_, fun b hb i hi => h.records i (lines_subset hprint b hb hi)⟩
  · rw [htotals, hsize, ← hperm.length_eq, List.length_map]
  · rw [htotals, hcount, hcommits]
  · rw [htotals, hdelay, hdelays]

theorem counts_loop : ∃ p,
    (report (· + 4) 0 [⟨8, [], 1⟩, ⟨12, [], 2⟩, ⟨(8 : ℕ), [], 3⟩]).print (· + 4) 1 = some p ∧
      p.totals.size = 2 ∧ p.totals.count = 3 ∧ p.totals.delay = 6 := by
  obtain ⟨p, hp⟩ : ∃ p, (report (· + 4) 0
      [⟨8, [], 1⟩, ⟨12, [], 2⟩, ⟨(8 : ℕ), [], 3⟩]).print (· + 4) 1 = some p :=
    Option.isSome_iff_exists.mp (by decide)
  obtain ⟨hsize, hcount, hdelay, -⟩ := print_counts (by decide) hp
  exact ⟨p, hp, hsize, hcount, hdelay⟩

end Counts

/-! ### What is not listed -/

section Order
variable {α : Type*} [LinearOrder α] {next : α → α} {start : α} {commits : List (Commit α)}
  {p : Printed α} {size : ℕ}

end Order

end Awb.BlockReport
