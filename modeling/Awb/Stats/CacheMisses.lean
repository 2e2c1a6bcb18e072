import Awb.Builder.Paths
import Mathlib.Tactic

/-! The cache misses for each 1000 instructions that `summarize-stats` prints for a network model:
the tables of the committed instructions and of the slices, and the loops that sum over them. -/

namespace Awb.Stats.Summarize

/-! ### Stats files -/

inductive Node
  | scalar (name : Text) (value : ℕ)
  | compound (name : Text) (nodes : List Node)

namespace Node

def scalarOf (name : Text) : Node → Option ℕ
  | scalar name' value => if name' = name then some value else none
  | compound _ _ => none

def compoundOf (name : Text) : Node → Option (List Node)
  | scalar _ _ => none
  | compound name' nodes => if name' = name then some nodes else none

end Node

/-- `findnodes` for `scalar[name='…']`. -/
def scalars (name : Text) (nodes : List Node) : List ℕ := nodes.filterMap (Node.scalarOf name)

def compounds (name : Text) (nodes : List Node) : List (List Node) :=
  nodes.filterMap (Node.compoundOf name)

mutual

/-- `descendant-or-self::compound[name='…']` -/
def Node.descendants (name : Text) : Node → List (List Node)
  | .scalar _ _ => []
  | .compound name' nodes => (if name' = name then [nodes] else []) ++ descendants name nodes

/-- `descendant::compound[name='…']`, in the order of the document. -/
def descendants (name : Text) : List Node → List (List Node)
  | [] => []
  | node :: nodes => node.descendants name ++ descendants name nodes

end

/-- `findnodes` for a path of compounds. -/
def compoundsAt : List Text → List Node → List (List Node)
  | [], nodes => [nodes]
  | name :: path, nodes => (compounds name nodes).flatMap (compoundsAt path)

/-- `get_value` and `cond_get_value` for a scalar at the end of a path. The first one dies where the
other returns nothing, and neither gets its second argument if the array has several elements. -/
def getValue (tree : List (List Node)) (path : List Text) (name : Text) : Option ℕ :=
  match tree with
  | [nodes] => ((compoundsAt path nodes).flatMap (scalars name)).head?
  | _ => none

def digits (n : ℕ) : Text := Nat.toDigits 10 n

/-! ### Chips and commits -/

structure Commits where
  commit : List ℕ
  activeCPUs : ℕ
  commitTotal : ℕ

/-- An assignment to an element of an array. -/
def setAt (table : List ℕ) (i value : ℕ) : List ℕ :=
  table.take i ++ List.replicate (i - table.length) 0 ++ value :: table.drop (i + 1)

def Commits.add (commits : Commits) (cpu value : ℕ) : Commits where
  commit := setAt commits.commit cpu value
  activeCPUs := commits.activeCPUs + if 0 < value then 1 else 0
  commitTotal := commits.commitTotal + if 0 < value then value else 0

def committedName (chipPrefix : Text) (chip cpu : ℕ) : Text :=
  chipPrefix ++ (if chipPrefix = [] then [] else digits chip ++ ['_']) ++
    "CPU_".toList ++ digits cpu ++ "_instructions_committed".toList

/-- The chip is in the name, if there is no name without it. -/
def chipPrefix (common : List Node) : Text :=
  if (scalars "CPU_0_instructions_committed".toList common).length ≠ 1 then "CHIP_".toList else []

section
variable (fuel : ℕ) (common : List Node) (pre : Text)

/-- The loop over the CPUs of a chip. -/
def readCpus (chip : ℕ) : ℕ → ℕ → Commits → ℕ × Commits
  | 0, cpu, commits => (cpu, commits)
  | fuel + 1, cpu, commits =>
    match scalars (committedName pre chip cpu) common with
    | [value] => readCpus chip fuel (cpu + 1) (commits.add cpu value)
    | _ => (cpu, commits)

/-- The loop over the chips. -/
def readChips : ℕ → ℕ → Commits → ℕ × Commits
  | 0, chip, commits => (chip, commits)
  | passes + 1, chip, commits =>
    let (cpu, commits) := readCpus common pre chip fuel 0 commits
    if cpu = 0 ∨ pre = [] then (chip, commits) else readChips passes (chip + 1) commits

def computeChipsAndCommits : ℕ × Commits :=
  readChips fuel common (chipPrefix common) fuel 0 ⟨[], 0, 0⟩

/-! ### Slices -/

def moreChips : ℕ → ℕ → List (List Node)
  | 0, _ => []
  | passes + 1, chip =>
    match descendants ("CHIP_".toList ++ digits chip) common with
    | [] => []
    | chips => chips ++ moreChips passes (chip + 1)

def findChips : List (List Node) :=
  descendants "CHIP".toList common ++ moreChips common fuel 0

def chipName (chip : ℕ) : Text := if pre = [] then "CHIP".toList else pre ++ digits chip

variable (chip : List Node)

/-- The root of a slice of the first chip. -/
def sliceRoot (sliceNum : ℕ) : List (List Node) :=
  let name := "SLICE_".toList ++ digits sliceNum
  if chipName pre 0 = "CHIP".toList then compoundsAt [name] chip
  else compoundsAt ["PROC".toList, name] chip

def readHwcs (cpuRoot : List (List Node)) : ℕ → ℕ → List ℕ
  | 0, _ => []
  | fuel + 1, h =>
    match getValue cpuRoot [] ("HWC_".toList ++ digits h) with
    | some hwc => hwc :: readHwcs cpuRoot fuel (h + 1)
    | none => []

/-- The loop over the slices: their roots, and the contexts of those that have any. -/
def readSlices : ℕ → ℕ → List (List (List Node)) × List (ℕ × List ℕ)
  | 0, _ => ([], [])
  | passes + 1, sliceNum =>
    match sliceRoot pre chip sliceNum with
    | [] => ([], [])
    | root :: roots =>
      let hwcs := readHwcs (compounds "CPU".toList root) fuel 0
      let (slices, sliceToHwc) := readSlices passes (sliceNum + 1)
      ((root :: roots) :: slices,
        if hwcs = [] then sliceToHwc else (sliceNum, hwcs) :: sliceToHwc)

/-- The roots of the slices of the CPUs, which are the slices with contexts in ascending order. -/
def cpuSlices (sliceToHwc : List (ℕ × List ℕ)) : List (List (List Node)) :=
  ((sliceToHwc.map Prod.fst).mergeSort (· ≤ ·)).map (sliceRoot pre chip)

end

/-! ### Sums -/

/-- A loop over the CPUs that committed instructions, with the slices of these CPUs. -/
def forActive {α : Type} (read : α → Option ℕ) (assign : ℕ → ℕ → ℕ) :
    List ℕ → List α → ℕ → Option ℕ
  | [], _, acc => some acc
  | n :: commit, slice, acc =>
    if 0 < n then
      (slice.head?.bind read).bind fun value =>
        forActive read assign commit slice.tail (assign acc value)
    else forActive read assign commit slice.tail acc

def cboxPath : List Text := ["CBOX".toList, "CBOX_CACHE".toList]

def mcPath : List Text := ["CPU".toList, "MBOX".toList, "MC".toList]

def dcPath : List Text := ["CPU".toList, "MBOX".toList, "DC".toList]

def ifuPath : List Text := ["CPU".toList, "IBOX".toList, "IFU".toList]

def cboxLoadMiss (slice : List (List Node)) : Option ℕ :=
  getValue slice cboxPath "CboxCacheLoadMiss".toList

def cboxStoreMiss (slice : List (List Node)) : Option ℕ :=
  getValue slice cboxPath "CboxCacheStoreMiss".toList

def mcacheWriteMiss (slice : List (List Node)) : Option ℕ :=
  getValue slice mcPath "McacheWriteMiss".toList

def mcacheReadMiss (slice : List (List Node)) : Option ℕ :=
  getValue slice mcPath "McacheReadMiss".toList

def dcacheMiss (slice : List (List Node)) : Option ℕ := do
  let pa ← getValue slice dcPath "DcachePAMiss".toList
  let force ← getValue slice dcPath "DcachePAForceMiss".toList
  return pa + force

def icacheMiss (slice : List (List Node)) : Option ℕ :=
  getValue slice ifuPath "ICacheFillReqSent".toList

/-- The sum over all slices. -/
def sumSlices {α : Type} (read : α → Option ℕ) (slices : List α) : Option ℕ :=
  slices.foldlM (fun acc slice => (read slice).map (acc + ·)) 0

/-- The numbers that are printed. -/
structure CacheMisses where
  rcache : ℚ
  rcacheRead : ℚ
  rcacheWrite : ℚ
  mcache : ℚ
  mcacheRead : ℚ
  mcacheWrite : ℚ
  dcache : ℚ
  icache : ℚ

def perThousand (misses commitTotal : ℕ) : ℚ := 1000 * ((misses : ℚ) / commitTotal)

/-- The lines for the caches, without the sizes of these. Nothing is printed if a value is missing
or no instruction has been committed. The misses of the data cache are assigned, not added. -/
def cacheMisses (fuel : ℕ) (common : List Node) : Option CacheMisses := do
  let pre := chipPrefix common
  let ⟨commit, _, commitTotal⟩ := (computeChipsAndCommits fuel common).2
  let chip ← (findChips fuel common).head?
  let (slices, sliceToHwc) := readSlices fuel pre chip fuel 0
  let slice := cpuSlices pre chip sliceToHwc
  let rcacheRead ← sumSlices cboxLoadMiss slices
  let rcacheWrite ← sumSlices cboxStoreMiss slices
  let mcacheWrite ← forActive mcacheWriteMiss (· + ·) commit slice 0
  let mcacheRead ← forActive mcacheReadMiss (· + ·) commit slice 0
  let dcache ← forActive dcacheMiss (fun _ value => value) commit slice 0
  let icache ← forActive icacheMiss (· + ·) commit slice 0
  if commitTotal = 0 then none
  else return {
    rcache := perThousand (rcacheRead + rcacheWrite) commitTotal
    rcacheRead := perThousand rcacheRead commitTotal
    rcacheWrite := perThousand rcacheWrite commitTotal
    mcache := perThousand (mcacheRead + mcacheWrite) commitTotal
    mcacheRead := perThousand mcacheRead commitTotal
    mcacheWrite := perThousand mcacheWrite commitTotal
    dcache := perThousand dcache commitTotal
    icache := perThousand icache commitTotal }

/-! ### What a stats file says -/

/-- A CPU with its hardware contexts. -/
structure Cpu where
  committed : ℕ
  hwcs : List ℕ
  hasHwc : hwcs ≠ []
  mcacheWriteMiss : ℕ
  mcacheReadMiss : ℕ
  dcachePAMiss : ℕ
  dcachePAForceMiss : ℕ
  icacheFillReqSent : ℕ

structure Slice where
  cboxLoadMiss : ℕ
  cboxStoreMiss : ℕ
  cpu : Option Cpu

structure Chip where
  slices : List Slice
  hasCpu : slices.filterMap Slice.cpu ≠ []

def Chip.cpus (chip : Chip) : List Cpu := chip.slices.filterMap Slice.cpu

/-- In the files of the older models the chip has no number. -/
structure StatsFile where
  first : Chip
  others : List Chip
  named : Bool
  older : named = false → others = []

namespace StatsFile

variable (file : StatsFile)

def chips : List Chip := file.first :: file.others

def pre : Text := if file.named then "CHIP_".toList else []

/-- More passes than any loop needs. -/
def passes : ℕ :=
  file.chips.length + (file.chips.map fun chip =>
    chip.slices.length + (chip.cpus.map fun cpu => cpu.hwcs.length).sum).sum

end StatsFile

/-- At each number from `i` on there is what an element of the list describes, and nothing at the
number behind. -/
def Listed {α β : Type} (found : ℕ → List α) (describes : α → β → Prop) : ℕ → List β → Prop
  | i, [] => found i = []
  | i, b :: bs => (∃ a, found i = [a] ∧ describes a b) ∧ Listed found describes (i + 1) bs

def hwcOf (root : List Node) (h : ℕ) : List ℕ :=
  (getValue (compounds "CPU".toList root) [] ("HWC_".toList ++ digits h)).toList

structure DescribesCpu (root : List Node) (cpu : Cpu) : Prop where
  hwcs : Listed (hwcOf root) Eq 0 cpu.hwcs
  mcacheWrite : mcacheWriteMiss [root] = some cpu.mcacheWriteMiss
  mcacheRead : mcacheReadMiss [root] = some cpu.mcacheReadMiss
  dcachePA : getValue [root] dcPath "DcachePAMiss".toList = some cpu.dcachePAMiss
  dcachePAForce : getValue [root] dcPath "DcachePAForceMiss".toList = some cpu.dcachePAForceMiss
  icache : icacheMiss [root] = some cpu.icacheFillReqSent

structure DescribesSlice (root : List Node) (slice : Slice) : Prop where
  load : cboxLoadMiss [root] = some slice.cboxLoadMiss
  store : cboxStoreMiss [root] = some slice.cboxStoreMiss
  noCpu : slice.cpu = none → compounds "CPU".toList root = []
  cpu : ∀ cpu ∈ slice.cpu, DescribesCpu root cpu

def chipNodes (common : List Node) (named : Bool) (chip : ℕ) : List (List Node) :=
  if named then descendants ("CHIP_".toList ++ digits chip) common
  else if chip = 0 then descendants "CHIP".toList common else []

/-- The counters of the CPUs of the chips from `n` on, and none for a chip more. -/
def CommitsListed (common : List Node) (pre : Text) : ℕ → List Chip → Prop
  | n, [] => pre ≠ [] → scalars (committedName pre n 0) common = []
  | n, chip :: chips => Listed (fun cpu => scalars (committedName pre n cpu) common)
      (fun value cpu => value = cpu.committed) 0 chip.cpus ∧ CommitsListed common pre (n + 1) chips

/-- The `COMMON_SYSTEM` of a file. -/
structure Describes (common : List Node) (file : StatsFile) : Prop where
  named : file.named = true → scalars "CPU_0_instructions_committed".toList common = [] ∧
    descendants "CHIP".toList common = []
  committed : CommitsListed common file.pre 0 file.chips
  chips : Listed (chipNodes common file.named)
    (fun nodes chip => Listed (sliceRoot file.pre nodes) DescribesSlice 0 chip.slices) 0 file.chips

/-! ### The numbers of a file -/

def Slice.rcacheMisses (slice : Slice) : ℕ := slice.cboxLoadMiss + slice.cboxStoreMiss

namespace Cpu

def mcacheMisses (cpu : Cpu) : ℕ := cpu.mcacheReadMiss + cpu.mcacheWriteMiss

def dcacheMisses (cpu : Cpu) : ℕ := cpu.dcachePAMiss + cpu.dcachePAForceMiss

end Cpu

/-- The misses of the CPUs that committed instructions. -/
def missesOf (misses : Cpu → ℕ) (cpus : List Cpu) : ℕ :=
  ((cpus.filter (0 < ·.committed)).map misses).sum

def StatsFile.commitTotal (file : StatsFile) : ℕ :=
  ((file.chips.flatMap Chip.cpus).map Cpu.committed).sum

/-- The misses of all chips, for each 1000 of the committed instructions. -/
structure Reported (file : StatsFile) (m : CacheMisses) : Prop where
  rcache : m.rcache = perThousand
    ((file.chips.flatMap Chip.slices).map Slice.rcacheMisses).sum file.commitTotal
  mcache : m.mcache = perThousand
    (missesOf Cpu.mcacheMisses (file.chips.flatMap Chip.cpus)) file.commitTotal
  dcache : m.dcache = perThousand
    (missesOf Cpu.dcacheMisses (file.chips.flatMap Chip.cpus)) file.commitTotal
  icache : m.icache = perThousand
    (missesOf Cpu.icacheFillReqSent (file.chips.flatMap Chip.cpus)) file.commitTotal

/-- What the last chip with a CPU of this number says of it. -/
def lastCommitted (chips : List Chip) (cpu : ℕ) : ℕ :=
  (chips.reverse.findSome? fun chip => (chip.cpus.map Cpu.committed)[cpu]?).getD 0

/-- The CPUs of the first chip, with what a last chip says of CPUs of their numbers. -/
def StatsFile.marked (file : StatsFile) : List (Cpu × ℕ) :=
  file.first.cpus.zipIdx.map fun (cpu, i) => (cpu, lastCommitted file.chips i)

/-- No CPU but the last one keeps its mark. -/
def onlyLast : List (Cpu × ℕ) → List (Cpu × ℕ)
  | [] => []
  | (cpu, n) :: marked =>
    (cpu, if marked.any (0 < ·.2) then 0 else n) :: onlyLast marked

/-- Those of the marked CPUs that committed nothing have as many misses as the CPUs that did, and
are not marked or on another chip. -/
def Balanced (misses : Cpu → ℕ) (marked : List (Cpu × ℕ)) (others : List Chip) : Prop :=
  ((marked.filter fun (cpu, n) => 0 < n ∧ cpu.committed = 0).map fun m => misses m.1).sum =
    ((marked.filter fun (cpu, n) => n = 0 ∧ 0 < cpu.committed).map fun m => misses m.1).sum +
      missesOf misses (others.flatMap Chip.cpus)

/-! ### The table of the commits -/

variable {common chip : List Node} {pre : Text} {fuel passes n k : ℕ}

theorem setAt_of_le {table : List ℕ} (hk : k ≤ table.length) (value : ℕ) :
    setAt table k value = table.take k ++ value :: table.drop (k + 1) := by
  rw [setAt, Nat.sub_eq_zero_of_le hk, List.replicate_zero, List.append_nil]

theorem Commits.add_commitTotal (commits : Commits) (cpu value : ℕ) :
    (commits.add cpu value).commitTotal = commits.commitTotal + value := by
  simp only [Commits.add]
  split <;> omega

theorem readCpus_spec {cpus : List Cpu} (st : Commits)
    (h : Listed (fun cpu => scalars (committedName pre n cpu) common)
      (fun value cpu => value = cpu.committed) k cpus)
    (hk : k ≤ st.commit.length) (hfuel : cpus.length < fuel) :
    ∃ st', readCpus common pre n fuel k st = (k + cpus.length, st') ∧
      st'.commit = st.commit.take k ++ cpus.map Cpu.committed ++
        st.commit.drop (k + cpus.length) ∧
      st'.commitTotal = st.commitTotal + (cpus.map Cpu.committed).sum := by
  obtain ⟨fuel, rfl⟩ := Nat.exists_eq_add_one_of_ne_zero (by omega : fuel ≠ 0)
  induction cpus generalizing k st fuel with
  | nil =>
    have hnone : scalars (committedName pre n k) common = [] := h
    exact ⟨st, by simp [readCpus, hnone], by simp, by simp⟩
  | cons cpu cpus ih =>
    obtain ⟨⟨value, hvalue, rfl⟩, hrest⟩ := h
    rw [List.length_cons] at hfuel
    obtain ⟨fuel, rfl⟩ := Nat.exists_eq_add_one_of_ne_zero (by omega : fuel ≠ 0)
    have hcommit : (st.add k cpu.committed).commit =
        st.commit.take k ++ cpu.committed :: st.commit.drop (k + 1) := setAt_of_le hk _
    have hlength : (st.commit.take k).length = k := List.length_take_of_le hk
    have hplace : k + 1 ≤ (st.add k cpu.committed).commit.length := by
      rw [hcommit, List.length_append, List.length_cons, hlength]
      omega
    obtain ⟨st', hread, hst', htotal⟩ := ih (st.add k cpu.committed) hrest hplace fuel (by omega)
    refine ⟨st', ?_, ?_, ?_⟩
    · simp only at hvalue
      rw [readCpus, hvalue]
      simp only [hread, List.length_cons]
      rw [Nat.add_assoc, Nat.add_comm 1]
    · have htake : (st.add k cpu.committed).commit.take (k + 1) =
          st.commit.take k ++ [cpu.committed] := by
        rw [hcommit, List.take_append, hlength]
        simp
      have hdrop : (st.add k cpu.committed).commit.drop (k + 1 + cpus.length) =
          st.commit.drop (k + (cpus.length + 1)) := by
        rw [hcommit, List.drop_append, hlength, List.drop_eq_nil_of_le (by rw [hlength]; omega),
          List.nil_append, show k + 1 + cpus.length - k = cpus.length + 1 by omega,
          List.drop_succ_cons, List.drop_drop]
        congr 1
        omega
      rw [hst', htake, hdrop]
      simp
    · rw [htotal, Commits.add_commitTotal, List.map_cons, List.sum_cons, Nat.add_assoc]

/-- The commits of a chip take the places of those of the chip before. -/
def overlay (table : List ℕ) (chip : Chip) : List ℕ :=
  chip.cpus.map Cpu.committed ++ table.drop chip.cpus.length

theorem readChips_spec {chips : List Chip} (st : Commits) (hpre : pre ≠ [])
    (h : CommitsListed common pre n chips) (hcpus : ∀ chip ∈ chips, chip.cpus.length < fuel)
    (hpasses : chips.length < passes) :
    ∃ st', (readChips fuel common pre passes n st).2 = st' ∧
      st'.commit = chips.foldl overlay st.commit ∧
      st'.commitTotal = st.commitTotal + ((chips.flatMap Chip.cpus).map Cpu.committed).sum := by
  obtain ⟨passes, rfl⟩ := Nat.exists_eq_add_one_of_ne_zero (by omega : passes ≠ 0)
  induction chips generalizing n st passes with
  | nil =>
    have hnone : readCpus common pre n fuel 0 st = (0, st) := by
      cases fuel with
      | zero => rfl
      | succ fuel => rw [readCpus, h hpre]
    exact ⟨st, by simp [readChips, hnone], rfl, by simp⟩
  | cons chip chips ih =>
    obtain ⟨hchip, hchips⟩ := h
    obtain ⟨hlt, hrest⟩ := List.forall_mem_cons.mp hcpus
    rw [List.length_cons] at hpasses
    obtain ⟨passes, rfl⟩ := Nat.exists_eq_add_one_of_ne_zero (by omega : passes ≠ 0)
    obtain ⟨st₁, hread, hcommit, htotal⟩ := readCpus_spec st hchip (Nat.zero_le _) hlt
    obtain ⟨st₂, hread₂, hcommit₂, htotal₂⟩ := ih st₁ hchips hrest passes (by omega)
    have hne : 0 + chip.cpus.length ≠ 0 := by
      rw [Nat.zero_add]
      exact fun hzero => chip.hasCpu (List.length_eq_zero_iff.mp hzero)
    refine ⟨st₂, ?_, ?_, ?_⟩
    · rw [readChips, hread]
      simp only [hne, hpre, or_false, if_false]
      exact hread₂
    · rw [hcommit₂, hcommit, List.take_zero, List.nil_append, Nat.zero_add]
      rfl
    · rw [htotal₂, htotal, List.flatMap_cons, List.map_append, List.sum_append, Nat.add_assoc]

variable {file : StatsFile}

theorem chip_passes {c : Chip} (hc : c ∈ file.chips) :
    c.slices.length + (c.cpus.map fun cpu => cpu.hwcs.length).sum < file.passes := by
  have hle := List.single_le_sum (fun _ _ => Nat.zero_le _) _ (List.mem_map_of_mem
    (f := fun chip : Chip => chip.slices.length +
      (chip.cpus.map fun cpu => cpu.hwcs.length).sum) hc)
  have hpos : 0 < file.chips.length := Nat.succ_pos _
  rw [StatsFile.passes]
  omega

theorem length_cpus_le (c : Chip) : c.cpus.length ≤ c.slices.length := List.length_filterMap_le _ _

theorem length_chips_le (file : StatsFile) : file.chips.length ≤ file.passes := Nat.le_add_right _ _

/-- The commits of the file, and whether the chips have numbers. -/
theorem Describes.commits (h : Describes common file) (hfuel : file.passes < fuel) :
    chipPrefix common = file.pre ∧
      (computeChipsAndCommits fuel common).2.commit = file.chips.foldl overlay [] ∧
      (computeChipsAndCommits fuel common).2.commitTotal = file.commitTotal := by
  have hcpus : ∀ c ∈ file.chips, c.cpus.length < fuel := fun c hc => by
    have := chip_passes hc
    have := length_cpus_le c
    omega
  have hlength := length_chips_le file
  match hnamed : file.named with
  | true =>
    have hpre : file.pre = "CHIP_".toList := by rw [StatsFile.pre, if_pos hnamed]
    have hbegins : chipPrefix common = file.pre := by
      rw [chipPrefix, (h.named hnamed).1, hpre]
      rfl
    obtain ⟨st, hread, hcommit, htotal⟩ := readChips_spec ⟨[], 0, 0⟩
      (by rw [hpre]; exact List.cons_ne_nil _ _) h.committed hcpus
      (by omega : file.chips.length < fuel)
    rw [computeChipsAndCommits, hbegins, hread]
    exact ⟨rfl, hcommit, by rw [htotal, Nat.zero_add, StatsFile.commitTotal]⟩
  | false =>
    have hpre : file.pre = [] := by rw [StatsFile.pre, hnamed]; rfl
    have hchips : file.chips = [file.first] := by rw [StatsFile.chips, file.older hnamed]
    have hlisted := h.committed
    rw [hchips, hpre] at hlisted
    obtain ⟨hfirst, -⟩ := hlisted
    obtain ⟨st, hread, hcommit, htotal⟩ := readCpus_spec ⟨[], 0, 0⟩ hfirst (Nat.zero_le _)
      (hcpus file.first List.mem_cons_self)
    have hbegins : chipPrefix common = [] := by
      obtain ⟨cpu, cpus, hcpu⟩ := List.exists_cons_of_ne_nil file.first.hasCpu
      rw [show file.first.cpus = cpu :: cpus from hcpu] at hfirst
      obtain ⟨⟨value, hvalue, -⟩, -⟩ := hfirst
      have hname : committedName [] 0 0 = "CPU_0_instructions_committed".toList := by decide
      simp only [hname] at hvalue
      rw [chipPrefix, hvalue]
      rfl
    obtain ⟨passes, rfl⟩ := Nat.exists_eq_add_one_of_ne_zero (by omega : fuel ≠ 0)
    rw [computeChipsAndCommits, hbegins, readChips, hread]
    refine ⟨hpre.symm, ?_, ?_⟩
    · simp only [or_true, if_true, hcommit, hchips, List.take_zero, List.nil_append]
      rw [Nat.zero_add]
      rfl
    · simp only [or_true, if_true, htotal, StatsFile.commitTotal, hchips]
      simp

/-! ### The table of the slices -/

theorem Describes.firstChip (h : Describes common file) (hfuel : file.passes < fuel) :
    ∃ nodes, (findChips fuel common).head? = some nodes ∧
      Listed (sliceRoot file.pre nodes) DescribesSlice 0 file.first.slices := by
  obtain ⟨⟨nodes, hnodes, hslices⟩, -⟩ := h.chips
  refine ⟨nodes, ?_, hslices⟩
  rw [chipNodes] at hnodes
  split at hnodes
  next hnamed =>
    obtain ⟨passes, rfl⟩ := Nat.exists_eq_add_one_of_ne_zero (by omega : fuel ≠ 0)
    rw [findChips, (h.named hnamed).2, moreChips, hnodes]
    rfl
  next =>
    rw [if_pos rfl] at hnodes
    rw [findChips, hnodes]
    rfl

theorem readHwcs_spec {root : List Node} {hwcs : List ℕ} (h : Listed (hwcOf root) Eq k hwcs)
    (hfuel : hwcs.length < fuel) : readHwcs (compounds "CPU".toList root) fuel k = hwcs := by
  obtain ⟨fuel, rfl⟩ := Nat.exists_eq_add_one_of_ne_zero (by omega : fuel ≠ 0)
  induction hwcs generalizing k fuel with
  | nil =>
    have hnone := Option.toList_eq_nil_iff.mp h
    rw [readHwcs, hnone]
  | cons hwc hwcs ih =>
    obtain ⟨⟨value, hvalue, rfl⟩, hrest⟩ := h
    rw [List.length_cons] at hfuel
    obtain ⟨fuel, rfl⟩ := Nat.exists_eq_add_one_of_ne_zero (by omega : fuel ≠ 0)
    rw [readHwcs, Option.toList_eq_singleton_iff.mp hvalue]
    simp only [ih hrest fuel (by omega)]

/-- The array of a slice of the file, and the key of a slice with a CPU. -/
def DescribesTree (tree : List (List Node)) (slice : Slice) : Prop :=
  ∃ root, tree = [root] ∧ DescribesSlice root slice

def DescribesKey (pre : Text) (chip : List Node) (key : ℕ) (cpu : Cpu) : Prop :=
  ∃ root, sliceRoot pre chip key = [root] ∧ DescribesCpu root cpu

theorem readSlices_spec {slices : List Slice}
    (h : Listed (sliceRoot pre chip) DescribesSlice n slices) (hpasses : slices.length < passes)
    (hfuel : ∀ cpu ∈ slices.filterMap Slice.cpu, cpu.hwcs.length < fuel) :
    ∃ trees keys, readSlices fuel pre chip passes n = (trees, keys) ∧
      List.Forall₂ DescribesTree trees slices ∧
      List.Forall₂ (DescribesKey pre chip) (keys.map Prod.fst) (slices.filterMap Slice.cpu) ∧
      (keys.map Prod.fst).Pairwise (· < ·) ∧ ∀ key ∈ keys.map Prod.fst, n ≤ key := by
  obtain ⟨passes, rfl⟩ := Nat.exists_eq_add_one_of_ne_zero (by omega : passes ≠ 0)
  induction slices generalizing n passes with
  | nil =>
    have hnone : sliceRoot pre chip n = [] := h
    exact ⟨[], [], by rw [readSlices, hnone], .nil, .nil, .nil, fun _ hkey => nomatch hkey⟩
  | cons slice slices ih =>
    obtain ⟨⟨root, hroot, hslice⟩, hrest⟩ := h
    rw [List.length_cons] at hpasses
    obtain ⟨passes, rfl⟩ := Nat.exists_eq_add_one_of_ne_zero (by omega : passes ≠ 0)
    match hcpu : slice.cpu with
    | none =>
      rw [List.filterMap_cons_none hcpu] at hfuel ⊢
      obtain ⟨trees, keys, hread, htrees, hkeys, hsorted, hle⟩ := ih hrest hfuel passes (by omega)
      have hnone : readHwcs (compounds "CPU".toList root) fuel 0 = [] := by
        rw [hslice.noCpu hcpu]
        cases fuel <;> rfl
      refine ⟨[root] :: trees, keys, ?_, .cons ⟨root, rfl, hslice⟩ htrees, hkeys, hsorted,
        fun key hkey => (Nat.le_succ n).trans (hle key hkey)⟩
      rw [readSlices, hroot]
      simp only [hread, hnone, if_true]
    | some cpu =>
      rw [List.filterMap_cons_some hcpu] at hfuel ⊢
      obtain ⟨hlt, hfuel⟩ := List.forall_mem_cons.mp hfuel
      obtain ⟨trees, keys, hread, htrees, hkeys, hsorted, hle⟩ := ih hrest hfuel passes (by omega)
      have hdescribes := hslice.cpu cpu hcpu
      refine ⟨[root] :: trees, (n, cpu.hwcs) :: keys, ?_, .cons ⟨root, rfl, hslice⟩ htrees,
        .cons ⟨root, hroot, hdescribes⟩ hkeys, List.pairwise_cons.mpr ⟨hle, hsorted⟩, ?_⟩
      · rw [readSlices, hroot]
        simp only [hread, readHwcs_spec hdescribes.hwcs hlt, cpu.hasHwc, if_false]
      · exact List.forall_mem_cons.mpr ⟨le_rfl, fun key hkey =>
          (Nat.le_succ n).trans (hle key hkey)⟩

/-- The array of the slice of a CPU. -/
def DescribesCpuTree (tree : List (List Node)) (cpu : Cpu) : Prop :=
  ∃ root, tree = [root] ∧ DescribesCpu root cpu

theorem cpuSlices_spec {keys : List (ℕ × List ℕ)} {cpus : List Cpu}
    (h : List.Forall₂ (DescribesKey pre chip) (keys.map Prod.fst) cpus)
    (hsorted : (keys.map Prod.fst).Pairwise (· < ·)) :
    List.Forall₂ DescribesCpuTree (cpuSlices pre chip keys) cpus := by
  have hsort : (keys.map Prod.fst).mergeSort (· ≤ ·) = keys.map Prod.fst :=
    List.mergeSort_of_pairwise (hsorted.imp fun hlt => by simpa using le_of_lt hlt)
  rw [cpuSlices, hsort, List.forall₂_map_left_iff]
  exact h.imp fun _ _ ⟨root, hroot, hcpu⟩ => ⟨root, hroot, hcpu⟩

/-! ### The loops -/

/-- What a loop over CPUs reads from their slices it can read from the CPUs. -/
theorem forActive_congr {α β : Type} {read : α → Option ℕ} {read' : β → Option ℕ} {as : List α}
    {bs : List β} (h : List.Forall₂ (fun a b => read a = read' b) as bs) (assign : ℕ → ℕ → ℕ)
    (commit : List ℕ) (acc : ℕ) :
    forActive read assign commit as acc = forActive read' assign commit bs acc := by
  induction commit generalizing as bs acc with
  | nil => rfl
  | cons n commit ih =>
    rw [forActive, forActive]
    cases h with
    | nil =>
      rw [List.tail_nil, List.tail_nil, ih .nil]
      rfl
    | cons hhead htail =>
      simp only [List.head?_cons, Option.bind_some, hhead, List.tail_cons, ih htail]

theorem sumSlices_eq {α β : Type} {read : α → Option ℕ} {misses : β → ℕ} {as : List α}
    {bs : List β} (h : List.Forall₂ (fun a b => read a = some (misses b)) as bs) :
    sumSlices read as = some (bs.map misses).sum := by
  have hfold : ∀ acc, as.foldlM (fun acc slice => (read slice).map (acc + ·)) acc =
      some (acc + (bs.map misses).sum) := by
    induction h with
    | nil => exact fun acc => rfl
    | cons hhead _ ih =>
      intro acc
      rw [List.foldlM_cons, hhead]
      change List.foldlM _ (acc + _) _ = _
      rw [ih, List.map_cons, List.sum_cons, Nat.add_assoc]
  rw [sumSlices, hfold, Nat.zero_add]

/-- The loop ends if every number that is not zero has a CPU. -/
theorem forActive_cpus (misses : Cpu → ℕ) (assign : ℕ → ℕ → ℕ) (cpus : List Cpu) (commit : List ℕ)
    (acc : ℕ) : forActive (fun cpu => some (misses cpu)) assign commit cpus acc =
      if ∀ n ∈ commit.drop cpus.length, n = 0 then
        some (((cpus.zip commit).filter (0 < ·.2)).foldl (fun acc m => assign acc (misses m.1)) acc)
      else none := by
  induction commit generalizing cpus acc with
  | nil => simp [forActive]
  | cons n commit ih =>
    rw [forActive]
    match cpus with
    | [] =>
      have htail := ih [] acc
      rw [List.length_nil, List.drop_zero] at htail ⊢
      by_cases hn : 0 < n
      · rw [if_pos hn, if_neg fun hall => hn.ne' (hall n List.mem_cons_self)]
        rfl
      · have hzero : n = 0 := Nat.eq_zero_of_not_pos hn
        rw [if_neg hn, List.tail_nil, htail]
        simp [hzero]
    | cpu :: cpus =>
      rw [List.length_cons, List.drop_succ_cons, List.zip_cons_cons, List.tail_cons]
      by_cases hn : 0 < n
      · rw [if_pos hn, List.filter_cons_of_pos (by simpa using hn), List.foldl_cons]
        exact ih cpus _
      · rw [if_neg hn, List.filter_cons_of_neg (by simpa using hn)]
        exact ih cpus acc

/-! ### The marks -/

theorem lastCommitted_concat (chips : List Chip) (c : Chip) (i : ℕ) :
    lastCommitted (chips ++ [c]) i =
      ((c.cpus.map Cpu.committed)[i]?).getD (lastCommitted chips i) := by
  rw [lastCommitted, List.reverse_concat, List.findSome?_cons]
  cases (c.cpus.map Cpu.committed)[i]? <;> rfl

theorem foldl_overlay (chips : List Chip) (i : ℕ) :
    ((chips.foldl overlay [])[i]?).getD 0 = lastCommitted chips i := by
  induction chips using List.reverseRecOn with
  | nil => rfl
  | append_singleton chips c ih =>
    rw [List.foldl_concat, overlay, lastCommitted_concat, ← ih]
    by_cases hi : i < c.cpus.length
    · rw [List.getElem?_append_left (by simpa using hi)]
      simp [hi]
    · rw [List.getElem?_append_right (by simpa using hi), List.length_map, List.getElem?_drop,
        Nat.add_sub_of_le (by omega), List.getElem?_eq_none (l := c.cpus.map Cpu.committed)
          (by simpa using hi)]
      rfl

theorem length_overlay (chips : List Chip) (table : List ℕ) :
    table.length ≤ (chips.foldl overlay table).length := by
  induction chips generalizing table with
  | nil => exact le_rfl
  | cons c chips ih =>
    refine le_trans ?_ (ih (overlay table c))
    rw [overlay, List.length_append, List.length_map, List.length_drop]
    omega

theorem length_first_le (file : StatsFile) :
    file.first.cpus.length ≤ (file.chips.foldl overlay []).length := by
  have hfirst : (overlay [] file.first).length = file.first.cpus.length := by simp [overlay]
  have hle := length_overlay file.others (overlay [] file.first)
  rw [hfirst] at hle
  exact hle

/-- The CPUs of the first chip stand beside the numbers of the table. -/
theorem zip_commit (file : StatsFile) :
    file.first.cpus.zip (file.chips.foldl overlay []) = file.marked := by
  have hle := length_first_le file
  refine List.ext_getElem ?_ fun i hi hi' => ?_
  · rw [StatsFile.marked, List.length_map, List.length_zipIdx, List.length_zip]
    omega
  · have hlt : i < (file.chips.foldl overlay []).length := by
      rw [List.length_zip] at hi
      omega
    simp only [StatsFile.marked, List.getElem_zip, List.getElem_map, List.getElem_zipIdx]
    rw [← foldl_overlay, Nat.zero_add, List.getElem?_eq_getElem hlt]
    rfl

/-- Only CPUs of numbers that the first chip has are said to have committed instructions. -/
def StatsFile.InFirst (file : StatsFile) : Prop :=
  ∀ i, file.first.cpus.length ≤ i → lastCommitted file.chips i = 0

theorem forall_drop_iff (file : StatsFile) :
    (∀ n ∈ (file.chips.foldl overlay []).drop file.first.cpus.length, n = 0) ↔ file.InFirst := by
  constructor
  · intro h i hi
    rw [← foldl_overlay]
    match hn : (file.chips.foldl overlay [])[i]? with
    | none => rfl
    | some n =>
      refine h n (List.mem_of_getElem? (i := i - file.first.cpus.length) ?_)
      rw [List.getElem?_drop, Nat.add_sub_of_le hi, hn]
  · intro h n hn
    obtain ⟨i, hi⟩ := List.mem_iff_getElem?.mp hn
    rw [List.getElem?_drop] at hi
    have hzero := h _ (Nat.le_add_right file.first.cpus.length i)
    rw [← foldl_overlay, hi] at hzero
    exact hzero

instance (file : StatsFile) : Decidable file.InFirst := decidable_of_iff _ (forall_drop_iff file)

/-! ### The printed numbers -/

/-- The misses of the marked CPUs. -/
def countedMisses (misses : Cpu → ℕ) (marked : List (Cpu × ℕ)) : ℕ :=
  ((marked.filter (0 < ·.2)).map fun m => misses m.1).sum

theorem foldl_add_misses (misses : Cpu → ℕ) (marked : List (Cpu × ℕ)) :
    (marked.filter (0 < ·.2)).foldl (fun acc m => acc + misses m.1) 0 =
      countedMisses misses marked := by
  rw [countedMisses, List.sum_eq_foldl, List.foldl_map]

theorem countedMisses_of_not_any (misses : Cpu → ℕ) {marked : List (Cpu × ℕ)}
    (h : ¬marked.any (0 < ·.2)) : countedMisses misses marked = 0 := by
  rw [countedMisses, List.filter_eq_nil_iff.mpr fun m hm hpos =>
    h (List.any_eq_true.mpr ⟨m, hm, hpos⟩)]
  rfl

theorem any_onlyLast (marked : List (Cpu × ℕ)) :
    (onlyLast marked).any (0 < ·.2) = marked.any (0 < ·.2) := by
  induction marked with
  | nil => rfl
  | cons m marked ih =>
    rw [onlyLast, List.any_cons, List.any_cons, ih]
    cases marked.any (0 < ·.2) <;> simp

/-- An assignment in the place of an addition leaves the misses of the last CPU. -/
theorem foldl_assign_misses (misses : Cpu → ℕ) (marked : List (Cpu × ℕ)) (acc : ℕ) :
    (marked.filter (0 < ·.2)).foldl (fun _ m => misses m.1) acc =
      if marked.any (0 < ·.2) then countedMisses misses (onlyLast marked) else acc := by
  induction marked generalizing acc with
  | nil => rfl
  | cons m marked ih =>
    by_cases hany : marked.any (0 < ·.2)
    · have hrest : countedMisses misses (onlyLast (m :: marked)) =
          countedMisses misses (onlyLast marked) := by
        rw [onlyLast, countedMisses, if_pos hany, List.filter_cons_of_neg (by simp)]
        rfl
      rw [List.any_cons, hany, Bool.or_true, if_pos rfl, hrest, List.filter_cons]
      split
      · rw [List.foldl_cons, ih, if_pos hany]
      · rw [ih, if_pos hany]
    · have hrest : countedMisses misses (onlyLast marked) = 0 :=
        countedMisses_of_not_any misses (by rwa [any_onlyLast])
      rw [List.any_cons, List.filter_cons]
      by_cases hm : 0 < m.2
      · rw [if_pos (by simpa using hm), List.foldl_cons, ih, if_neg hany, if_pos (by simp [hm]),
          onlyLast, countedMisses, if_neg hany, List.filter_cons_of_pos (by simpa using hm),
          List.map_cons, List.sum_cons]
        exact (congrArg (misses m.1 + ·) hrest).symm
      · rw [if_neg (by simpa using hm), ih, if_neg hany, if_neg (by simp [hm, hany])]

theorem map_fst_onlyLast (marked : List (Cpu × ℕ)) :
    (onlyLast marked).map Prod.fst = marked.map Prod.fst := by
  induction marked with
  | nil => rfl
  | cons m marked ih => rw [onlyLast, List.map_cons, List.map_cons, ih]

theorem map_fst_marked (file : StatsFile) : file.marked.map Prod.fst = file.first.cpus := by
  rw [StatsFile.marked, List.map_map]
  exact List.zipIdx_map_fst 0 _

/-- What is counted and what should be differ in the CPUs of one kind only. -/
theorem countedMisses_add (misses : Cpu → ℕ) (marked : List (Cpu × ℕ)) :
    countedMisses misses marked + ((marked.filter fun (cpu, n) =>
        n = 0 ∧ 0 < cpu.committed).map fun m => misses m.1).sum =
      missesOf misses (marked.map Prod.fst) + ((marked.filter fun (cpu, n) =>
        0 < n ∧ cpu.committed = 0).map fun m => misses m.1).sum := by
  induction marked with
  | nil => rfl
  | cons m marked ih =>
    obtain ⟨cpu, n⟩ := m
    simp only [countedMisses, missesOf, List.map_cons, List.filter_cons] at ih ⊢
    by_cases hn : n = 0 <;> by_cases hcpu : cpu.committed = 0 <;>
      simp [hn, hcpu, Nat.pos_iff_ne_zero] at ih ⊢ <;> omega

theorem missesOf_append (misses : Cpu → ℕ) (cpus cpus' : List Cpu) :
    missesOf misses (cpus ++ cpus') = missesOf misses cpus + missesOf misses cpus' := by
  rw [missesOf, List.filter_append, List.map_append, List.sum_append]
  rfl

/-- The misses of the marked CPUs are those of all CPUs that committed, if what is counted by
mistake balances what is left out. -/
theorem countedMisses_eq_iff (misses : Cpu → ℕ) {marked : List (Cpu × ℕ)}
    (hmarked : marked.map Prod.fst = file.first.cpus) :
    countedMisses misses marked = missesOf misses (file.chips.flatMap Chip.cpus) ↔
      Balanced misses marked file.others := by
  have hadd := countedMisses_add misses marked
  rw [StatsFile.chips, List.flatMap_cons, missesOf_append, Balanced]
  rw [hmarked] at hadd
  omega

/-- The misses of the caches in the way the loops sum them. -/
structure Counted (file : StatsFile) (m : CacheMisses) : Prop where
  rcache : m.rcache = perThousand (file.first.slices.map Slice.rcacheMisses).sum file.commitTotal
  mcache : m.mcache = perThousand (countedMisses Cpu.mcacheMisses file.marked) file.commitTotal
  dcache : m.dcache =
    perThousand (countedMisses Cpu.dcacheMisses (onlyLast file.marked)) file.commitTotal
  icache : m.icache = perThousand (countedMisses Cpu.icacheFillReqSent file.marked) file.commitTotal

theorem forActive_file {read : List (List Node) → Option ℕ} {misses : Cpu → ℕ}
    {trees : List (List (List Node))} (h : List.Forall₂ DescribesCpuTree trees file.first.cpus)
    (hread : ∀ root cpu, DescribesCpu root cpu → read [root] = some (misses cpu))
    (assign : ℕ → ℕ → ℕ) :
    forActive read assign (file.chips.foldl overlay []) trees 0 =
      if file.InFirst then
        some ((file.marked.filter (0 < ·.2)).foldl (fun acc m => assign acc (misses m.1)) 0)
      else none := by
  have hcongr : List.Forall₂ (fun tree cpu => read tree = some (misses cpu)) trees
      file.first.cpus := h.imp fun tree cpu ⟨root, hroot, hcpu⟩ => by
    rw [hroot, hread root cpu hcpu]
  rw [forActive_congr hcongr, forActive_cpus, zip_commit]
  simp only [forall_drop_iff]

theorem countedMisses_fun_add {misses misses' : Cpu → ℕ} (marked : List (Cpu × ℕ)) :
    countedMisses misses marked + countedMisses misses' marked =
      countedMisses (fun cpu => misses cpu + misses' cpu) marked := by
  rw [countedMisses, countedMisses, countedMisses, ← List.sum_map_add]

/-- What is printed for a file. -/
theorem cacheMisses_eq (h : Describes common file) (hfuel : file.passes < fuel) :
    if file.InFirst ∧ 0 < file.commitTotal then
      ∃ m, cacheMisses fuel common = some m ∧ Counted file m
    else cacheMisses fuel common = none := by
  obtain ⟨hbegins, hcommit, htotal⟩ := h.commits hfuel
  obtain ⟨nodes, hnodes, hslices⟩ := h.firstChip hfuel
  have hpasses := chip_passes (List.mem_cons_self : file.first ∈ file.chips)
  have hhwcs : ∀ cpu ∈ file.first.slices.filterMap Slice.cpu, cpu.hwcs.length < fuel := by
    intro cpu hcpu
    have hle := List.single_le_sum (fun _ _ => Nat.zero_le _) _
      (List.mem_map_of_mem (f := fun cpu : Cpu => cpu.hwcs.length) hcpu)
    rw [Chip.cpus] at hpasses
    omega
  obtain ⟨trees, keys, hread, htrees, hkeys, hsorted, -⟩ :=
    readSlices_spec hslices (by omega : file.first.slices.length < fuel) hhwcs
  have hcpus := cpuSlices_spec hkeys hsorted
  have hload : sumSlices cboxLoadMiss trees = some (file.first.slices.map Slice.cboxLoadMiss).sum :=
    sumSlices_eq (htrees.imp fun tree slice ⟨root, hroot, hslice⟩ => by rw [hroot, hslice.load])
  have hstore : sumSlices cboxStoreMiss trees =
      some (file.first.slices.map Slice.cboxStoreMiss).sum :=
    sumSlices_eq (htrees.imp fun tree slice ⟨root, hroot, hslice⟩ => by rw [hroot, hslice.store])
  have hdcache : ∀ root cpu, DescribesCpu root cpu →
      dcacheMiss [root] = some cpu.dcacheMisses := fun root cpu hcpu => by
    rw [dcacheMiss, hcpu.dcachePA, hcpu.dcachePAForce]
    rfl
  have hwrites := forActive_file hcpus (fun _ _ hcpu => hcpu.mcacheWrite) (· + ·)
  have hreads := forActive_file hcpus (fun _ _ hcpu => hcpu.mcacheRead) (· + ·)
  have hdata := forActive_file hcpus hdcache (fun _ value => value)
  have hinstrs := forActive_file hcpus (fun _ _ hcpu => hcpu.icache) (· + ·)
  simp only [cacheMisses, hbegins, hcommit, htotal, hnodes, hread, hload, hstore, hwrites, hreads,
    hdata, hinstrs, Option.bind_eq_bind, Option.bind_some]
  by_cases hfirst : file.InFirst
  · by_cases hzero : file.commitTotal = 0
    · rw [if_neg (by omega)]
      simp [hfirst, hzero]
    · rw [if_pos ⟨hfirst, Nat.pos_of_ne_zero hzero⟩]
      simp only [hfirst, if_true, Option.bind_some, hzero, if_false]
      refine ⟨_, rfl, ?_, ?_, ?_, ?_⟩
      · rw [← List.sum_map_add]
        rfl
      · rw [foldl_add_misses, foldl_add_misses, countedMisses_fun_add]
        rfl
      · rw [foldl_assign_misses]
        split
        next => rfl
        next hany =>
          rw [countedMisses_of_not_any _ (by rwa [any_onlyLast])]
      · exact congrArg (perThousand · _) (foldl_add_misses _ _)
  · rw [if_neg fun hboth => hfirst hboth.1]
    simp [hfirst]

theorem perThousand_inj {misses misses' total : ℕ} (htotal : 0 < total) :
    perThousand misses total = perThousand misses' total ↔ misses = misses' := by
  have hne : (total : ℚ) ≠ 0 := Nat.cast_ne_zero.mpr htotal.ne'
  rw [perThousand, perThousand, mul_right_inj' (by norm_num), div_left_inj' hne, Nat.cast_inj]

theorem sum_slices_iff (file : StatsFile) :
    (file.first.slices.map Slice.rcacheMisses).sum =
        ((file.chips.flatMap Chip.slices).map Slice.rcacheMisses).sum ↔
      ∀ chip ∈ file.others, ∀ slice ∈ chip.slices, slice.rcacheMisses = 0 := by
  rw [StatsFile.chips, List.flatMap_cons, List.map_append, List.sum_append, eq_comm,
    Nat.add_eq_left, List.sum_eq_zero_iff]
  simp only [List.mem_map, List.mem_flatMap]
  constructor
  · exact fun h chip hchip slice hslice => h _ ⟨slice, ⟨chip, hchip, hslice⟩, rfl⟩
  · rintro h _ ⟨slice, ⟨chip, hchip, hslice⟩, rfl⟩
    exact h chip hchip slice hslice

/-- The printed numbers are those of all chips, if instructions have been committed, the last chip
with a CPU of any number says of it that it committed something only where the first chip has that
CPU, no other chip has misses in its slices, and the CPUs that are counted by mistake balance those
that are left out: the CPUs of the first chip are counted by the marks, for the data cache by the
last mark only. -/
theorem cacheMisses_reported_iff (h : Describes common file) (hfuel : file.passes < fuel) :
    (∃ m, cacheMisses fuel common = some m ∧ Reported file m) ↔
      0 < file.commitTotal ∧ file.InFirst ∧
      (∀ chip ∈ file.others, ∀ slice ∈ chip.slices, slice.rcacheMisses = 0) ∧
      Balanced Cpu.mcacheMisses file.marked file.others ∧
      Balanced Cpu.dcacheMisses (onlyLast file.marked) file.others ∧
      Balanced Cpu.icacheFillReqSent file.marked file.others := by
  have hprinted := cacheMisses_eq h hfuel
  by_cases hboth : file.InFirst ∧ 0 < file.commitTotal
  · rw [if_pos hboth] at hprinted
    obtain ⟨m, hm, hcounted⟩ := hprinted
    obtain ⟨hfirst, htotal⟩ := hboth
    have hmarked := map_fst_marked file
    have hlast : (onlyLast file.marked).map Prod.fst = file.first.cpus := by
      rw [map_fst_onlyLast, hmarked]
    have hreported : Reported file m ↔
        (∀ chip ∈ file.others, ∀ slice ∈ chip.slices, slice.rcacheMisses = 0) ∧
        Balanced Cpu.mcacheMisses file.marked file.others ∧
        Balanced Cpu.dcacheMisses (onlyLast file.marked) file.others ∧
        Balanced Cpu.icacheFillReqSent file.marked file.others := by
      rw [← sum_slices_iff, ← countedMisses_eq_iff _ hmarked, ← countedMisses_eq_iff _ hlast,
        ← countedMisses_eq_iff _ hmarked, ← perThousand_inj htotal, ← perThousand_inj htotal,
        ← perThousand_inj htotal, ← perThousand_inj htotal, ← hcounted.rcache, ← hcounted.mcache,
        ← hcounted.dcache, ← hcounted.icache]
      exact ⟨fun hm => ⟨hm.rcache, hm.mcache, hm.dcache, hm.icache⟩,
        fun ⟨hr, hmc, hd, hi⟩ => ⟨hr, hmc, hd, hi⟩⟩
    constructor
    · rintro ⟨m', hm', hm''⟩
      obtain rfl := Option.some.inj (hm.symm.trans hm')
      exact ⟨htotal, hfirst, hreported.mp hm''⟩
    · rintro ⟨-, -, hconds⟩
      exact ⟨m, hm, hreported.mpr hconds⟩
  · rw [if_neg hboth] at hprinted
    constructor
    · rintro ⟨m, hm, -⟩
      rw [hprinted] at hm
      cases hm
    · rintro ⟨htotal, hfirst, -⟩
      exact absurd ⟨hfirst, htotal⟩ hboth

/-! ### A file of an older model -/

def cpuNode (hwc mcWrite mcRead pa force icache : ℕ) : Node :=
  .compound "CPU".toList [.scalar "HWC_0".toList hwc,
    .compound "MBOX".toList [
      .compound "MC".toList [.scalar "McacheWriteMiss".toList mcWrite,
        .scalar "McacheReadMiss".toList mcRead],
      .compound "DC".toList [.scalar "DcachePAMiss".toList pa,
        .scalar "DcachePAForceMiss".toList force]],
    .compound "IBOX".toList [.compound "IFU".toList [.scalar "ICacheFillReqSent".toList icache]]]

def sliceNode (name : Text) (load store : ℕ) (cpu : Node) : Node :=
  .compound name [.compound "CBOX".toList [.compound "CBOX_CACHE".toList [
    .scalar "CboxCacheLoadMiss".toList load, .scalar "CboxCacheStoreMiss".toList store]], cpu]

def oneCpuSlice (pa : ℕ) : Slice where
  cboxLoadMiss := 4
  cboxStoreMiss := 2
  cpu := some ⟨1000, [0], List.cons_ne_nil _ _, 3, 5, pa, 0, 7⟩

/-- Two CPUs of a chip have committed as many instructions. -/
def twoCpus (pa : ℕ) : StatsFile where
  first := ⟨[oneCpuSlice pa, oneCpuSlice 0], List.cons_ne_nil _ _⟩
  others := []
  named := false
  older _ := rfl

def twoCpusSystem (pa : ℕ) : List Node :=
  [.scalar "CPU_0_instructions_committed".toList 1000,
    .scalar "CPU_1_instructions_committed".toList 1000,
    .compound "CHIP".toList [sliceNode "SLICE_0".toList 4 2 (cpuNode 0 3 5 pa 0 7),
      sliceNode "SLICE_1".toList 4 2 (cpuNode 0 3 5 0 0 7)]]

theorem describesSlice_oneCpu (pa : ℕ) :
    DescribesSlice [.compound "CBOX".toList [.compound "CBOX_CACHE".toList [
      .scalar "CboxCacheLoadMiss".toList 4, .scalar "CboxCacheStoreMiss".toList 2]],
      cpuNode 0 3 5 pa 0 7] (oneCpuSlice pa) where
  load := rfl
  store := rfl
  noCpu h := nomatch h
  cpu cpu hcpu := by
    obtain rfl := Option.some.inj hcpu
    exact ⟨⟨⟨0, rfl, rfl⟩, rfl⟩, rfl, rfl, rfl, rfl, rfl⟩

theorem describes_twoCpus (pa : ℕ) : Describes (twoCpusSystem pa) (twoCpus pa) where
  named h := nomatch h
  committed := ⟨⟨⟨1000, rfl, rfl⟩, ⟨1000, rfl, rfl⟩, rfl⟩, fun h => absurd rfl h⟩
  chips := ⟨⟨_, rfl, ⟨_, rfl, describesSlice_oneCpu pa⟩,
    ⟨_, rfl, describesSlice_oneCpu 0⟩, rfl⟩, rfl⟩

theorem marked_twoCpus (pa : ℕ) : (twoCpus pa).marked =
    [(⟨1000, [0], List.cons_ne_nil _ _, 3, 5, pa, 0, 7⟩, 1000),
      (⟨1000, [0], List.cons_ne_nil _ _, 3, 5, 0, 0, 7⟩, 1000)] := rfl

theorem cacheMisses_twoCpus :
    ∃ m, cacheMisses 7 (twoCpusSystem 0) = some m ∧ Reported (twoCpus 0) m := by
  refine (cacheMisses_reported_iff (describes_twoCpus 0) (by decide)).mpr
    ⟨by decide, ?_, ?_, ?_, ?_, ?_⟩
  · rw [← forall_drop_iff]
    decide
  · exact fun _ hchip => nomatch hchip
  · rw [Balanced, marked_twoCpus]
    rfl
  · rw [Balanced, marked_twoCpus]
    rfl
  · rw [Balanced, marked_twoCpus]
    rfl

/-- The miss of the first of two CPUs is lost. -/
theorem not_reported_twoCpus : ∃ common file fuel, Describes common file ∧ file.passes < fuel ∧
    0 < file.commitTotal ∧ file.others = [] ∧
    ¬∃ m, cacheMisses fuel common = some m ∧ Reported file m := by
  refine ⟨twoCpusSystem 1, twoCpus 1, 7, describes_twoCpus 1, by decide, by decide, rfl, ?_⟩
  rintro ⟨m, hm, hreported⟩
  have hprinted := cacheMisses_eq (describes_twoCpus 1) (by decide : (twoCpus 1).passes < 7)
  have hfirst : (twoCpus 1).InFirst := by
    rw [← forall_drop_iff]
    decide
  rw [if_pos ⟨hfirst, by decide⟩] at hprinted
  obtain ⟨m', hm', hcounted⟩ := hprinted
  obtain rfl := Option.some.inj (hm.symm.trans hm')
  have hdcache := hcounted.dcache.symm.trans hreported.dcache
  rw [perThousand_inj (by decide), marked_twoCpus] at hdcache
  exact absurd hdcache (by decide)

end Awb.Stats.Summarize
