import Awb.Util.LexicalPath
import Awb.Lib.Splitting

/-! `FileRelativePath` leads from a directory to a file, through their deepest common directory.
Its steps upwards are counted by an `int`. -/

namespace Awb
open PushPop

/-- The components of a path that are not empty. -/
def directories (path : Text) : List Text := (path.splitOn '/').filter (· ≠ [])

/-- No component of a path is `.` or `..`. -/
def NoDots (path : Text) : Prop := ∀ c ∈ path.splitOn '/', isDir c = true

instance (path : Text) : Decidable (NoDots path) :=
  List.decidableBAll (fun c => isDir c = true) (path.splitOn '/')

/-- How far a path is below the deepest directory that it shares with another one. -/
def depthBelow (path1 path2 : Text) : ℕ :=
  (stripCommon (directories path1) (directories path2)).1.length

section Strip
variable {α : Type} {l k up rest : List Text}

/-- What two lists have in common is cut off, and no more can be. -/
theorem stripCommon_spec (l k : List Text) : ∃ common,
    l = common ++ (stripCommon l k).1 ∧ k = common ++ (stripCommon l k).2 ∧
      ∀ a, (stripCommon l k).1.head? = some a → (stripCommon l k).2.head? ≠ some a := by
  induction l generalizing k with
  | nil => exact ⟨[], by simp [stripCommon], by simp [stripCommon], by simp [stripCommon]⟩
  | cons a l ih =>
    rcases k with _ | ⟨b, k⟩
    · exact ⟨[], by simp [stripCommon], by simp [stripCommon], by simp [stripCommon]⟩
    · rw [stripCommon]
      split
      next heq =>
        obtain ⟨common, hl, hk, hheads⟩ := ih k
        exact ⟨a :: common, congrArg (a :: ·) hl, heq ▸ congrArg (a :: ·) hk, hheads⟩
      next hne =>
        refine ⟨[], rfl, rfl, fun c hc hb => hne ?_⟩
        exact (Option.some.inj hc).trans (Option.some.inj hb).symm

end Strip

/-! ### What is joined -/

variable {path path1 path2 r : Text} {parts more : List Text}

/-- A part of a path that `FileJoin` can put behind a slash. -/
def IsPart (c : Text) : Prop := c ≠ [] ∧ '/' ∉ c

theorem IsPart.not_absolute {c : Text} (h : IsPart c) : isAbsolutePath c = false := by
  rcases c with _ | ⟨x, c⟩
  · exact absurd rfl h.1
  · have hx : x ≠ '/' := fun heq => h.2 (heq ▸ List.mem_cons_self ..)
    simp [isAbsolutePath, hx]

theorem getLast?_join (hparts : ∀ c ∈ parts, IsPart c) (hne : parts ≠ []) :
    ∃ x, (['/'].intercalate parts).getLast? = some x ∧ x ≠ '/' := by
  induction parts with
  | nil => exact absurd rfl hne
  | cons c parts ih =>
    obtain ⟨hc, hparts⟩ := List.forall_mem_cons.mp hparts
    by_cases hnil : parts = []
    · subst hnil
      rw [List.intercalate_singleton]
      refine ⟨c.getLast hc.1, List.getLast?_eq_getLast_of_ne_nil hc.1, fun heq => hc.2 ?_⟩
      exact heq ▸ List.getLast_mem hc.1
    · obtain ⟨x, hx, hxne⟩ := ih hparts hnil
      refine ⟨x, ?_, hxne⟩
      rw [List.intercalate_cons_of_ne_nil hnil, List.getLast?_append, hx]
      rfl

theorem join_concat (hne : parts ≠ []) (c : Text) :
    ['/'].intercalate (parts ++ [c]) = ['/'].intercalate parts ++ '/' :: c := by
  induction parts with
  | nil => exact absurd rfl hne
  | cons d parts ih =>
    by_cases hnil : parts = []
    · subst hnil
      simp
    · rw [List.cons_append, List.intercalate_cons_of_ne_nil (by simp), ih hnil,
        List.intercalate_cons_of_ne_nil hnil, List.append_assoc, List.append_assoc]
      simp

/-- `FileJoin` appends to a list of components. -/
theorem fileJoin_join (hparts : ∀ c ∈ parts, IsPart c) {c : Text} (hc : IsPart c) :
    fileJoin (['/'].intercalate parts) c = ['/'].intercalate (parts ++ [c]) := by
  by_cases hnil : parts = []
  · subst hnil
    simp [fileJoin]
  · obtain ⟨x, hx, hxne⟩ := getLast?_join hparts hnil
    have hne : ['/'].intercalate parts ≠ [] := fun h => by
      rw [h] at hx
      cases hx
    have hlast : (['/'].intercalate parts).getLast? ≠ some '/' := fun h =>
      hxne (Option.some.inj (hx.symm.trans h))
    have hnot : ¬ (isAbsolutePath c || (['/'].intercalate parts).isEmpty) = true := by
      rw [hc.not_absolute, Bool.false_or, List.isEmpty_iff]
      exact hne
    rw [fileJoin, if_neg hnot, if_neg hlast, join_concat hnil]

theorem foldl_fileJoin (hparts : ∀ c ∈ parts, IsPart c) (hmore : ∀ c ∈ more, IsPart c) :
    more.foldl fileJoin (['/'].intercalate parts) = ['/'].intercalate (parts ++ more) := by
  induction more generalizing parts with
  | nil => rw [List.append_nil, List.foldl_nil]
  | cons c more ih =>
    obtain ⟨hc, hmore⟩ := List.forall_mem_cons.mp hmore
    have hparts' : ∀ d ∈ parts ++ [c], IsPart d := by
      intro d hd
      rcases List.mem_append.mp hd with hd | hd
      · exact hparts d hd
      · exact List.mem_singleton.mp hd ▸ hc
    rw [List.foldl_cons, fileJoin_join hparts hc, ih hparts' hmore, List.append_assoc]
    rfl

theorem isPart_up : IsPart ['.', '.'] := ⟨by decide, by decide⟩

theorem iterate_eq_foldl {α β : Type} (f : β → α → β) (a : α) (n : ℕ) (b : β) :
    (f · a)^[n] b = (List.replicate n a).foldl f b := by
  induction n generalizing b with
  | zero => rfl
  | succ n ih =>
    rw [Function.iterate_succ_apply, ih]
    rfl

theorem isPart_of_mem_directories {c : Text} (h : c ∈ directories path) : IsPart c := by
  obtain ⟨hmem, hne⟩ := List.mem_filter.mp h
  rw [List.splitOn_eq_splitOnP] at hmem
  refine ⟨by simpa using hne, fun hslash => ?_⟩
  exact absurd ((Splitting.fullSplit_splitOnP (· == '/') path).clean c hmem '/' hslash) (by decide)

/-- The components of the result. -/
def relativeParts (path1 path2 : Text) : List Text :=
  List.replicate (sizeToInt (depthBelow path1 path2)).toNat ['.', '.'] ++
    (stripCommon (directories path1) (directories path2)).2

theorem isPart_of_mem_relativeParts : ∀ c ∈ relativeParts path1 path2, IsPart c := by
  obtain ⟨common, -, h2, -⟩ := stripCommon_spec (directories path1) (directories path2)
  intro c hc
  rcases List.mem_append.mp hc with hup | hrest
  · exact List.eq_of_mem_replicate hup ▸ isPart_up
  · have hmem : c ∈ common ++ (stripCommon (directories path1) (directories path2)).2 :=
      List.mem_append_right _ hrest
    rw [← h2] at hmem
    exact isPart_of_mem_directories hmem

/-- Both loops of `FileRelativePath`. -/
theorem join_up_down (n : ℕ) (hmore : ∀ c ∈ more, IsPart c) :
    more.foldl fileJoin ((fileJoin · ['.', '.'])^[n] []) =
      ['/'].intercalate (List.replicate n ['.', '.'] ++ more) := by
  have hups : ∀ c ∈ List.replicate n ['.', '.'], IsPart c := fun c hc =>
    List.eq_of_mem_replicate hc ▸ isPart_up
  have hstart : (List.replicate n ['.', '.']).foldl fileJoin [] =
      ['/'].intercalate (List.replicate n ['.', '.']) :=
    foldl_fileJoin (fun _ hc => absurd hc List.not_mem_nil) hups
  rw [iterate_eq_foldl fileJoin, hstart]
  exact foldl_fileJoin hups hmore

theorem fileRelativePath_eq (h1 : isAbsolutePath path1 = true) (h2 : isAbsolutePath path2 = true) :
    fileRelativePath path1 path2 = ['/'].intercalate (relativeParts path1 path2) := by
  have hrest : ∀ c ∈ (stripCommon (directories path1) (directories path2)).2, IsPart c :=
    fun c hc => isPart_of_mem_relativeParts c (List.mem_append_right _ hc)
  rw [relativeParts, ← join_up_down _ hrest, fileRelativePath, h1, h2, filter_splitString,
    filter_splitString, ← directories, ← directories, depthBelow]
  rfl

/-- The components that are found in the result again. -/
theorem splitOn_fileRelativePath (h1 : isAbsolutePath path1 = true)
    (h2 : isAbsolutePath path2 = true) : directories (fileRelativePath path1 path2) =
      relativeParts path1 path2 := by
  have hparts := @isPart_of_mem_relativeParts path1 path2
  rw [fileRelativePath_eq h1 h2, directories, splitOn_join fun c hc => (hparts c hc).2]
  split
  next hnil => rw [hnil]; rfl
  next =>
    rw [List.filter_eq_self]
    exact fun c hc => by simpa using (hparts c hc).1

/-! ### Where a joined path leads -/

/-- The components of a joined path, up to an empty one. -/
theorem splitOn_fileJoin (h1 : isAbsolutePath path1 = true) (hr : isAbsolutePath r = false) :
    isAbsolutePath (fileJoin path1 r) = true ∧
      ∃ front, (fileJoin path1 r).splitOn '/' = front ++ r.splitOn '/' ∧
        front.filter (· ≠ []) = directories path1 ∧ ∀ c ∈ front, c ∈ path1.splitOn '/' := by
  have hnil : path1 ≠ [] := fun h => by
    rw [h] at h1
    cases h1
  have hnot : ¬ (isAbsolutePath r || path1.isEmpty) = true := by
    rw [hr, Bool.false_or, List.isEmpty_iff]
    exact hnil
  have habs (more : Text) : isAbsolutePath (path1 ++ more) = true := by
    rw [isAbsolutePath, List.head?_append_of_ne_nil _ hnil]
    exact h1
  rw [fileJoin, if_neg hnot]
  split
  next hlast =>
    obtain ⟨q, rfl⟩ := List.getLast?_eq_some_iff.mp hlast
    have hsplit : (q ++ ['/']).splitOn '/' = q.splitOn '/' ++ [[]] := by
      rw [List.splitOn_append_cons_self, List.splitOn_nil]
    refine ⟨habs r, q.splitOn '/', ?_, ?_, ?_⟩
    · rw [List.append_assoc, List.singleton_append, List.splitOn_append_cons_self]
    · rw [directories, hsplit, List.filter_append]
      simp
    · exact fun c hc => hsplit ▸ List.mem_append_left _ hc
  next => exact ⟨habs _, path1.splitOn '/', List.splitOn_append_cons_self .., rfl, fun _ hc => hc⟩

/-- A relative path behind an absolute one. -/
theorem resolve_fileJoin (h1 : isAbsolutePath path1 = true) (hdots : NoDots path1)
    (hr : isAbsolutePath r = false) : resolve (fileJoin path1 r) =
      some ((directories path1).take
        ((directories path1).length - excess isName isUp (directories r)) ++
        survivors isName isUp (directories r)) := by
  obtain ⟨habs, front, hsplit, hfilter, hmem⟩ := splitOn_fileJoin h1 hr
  have hnames : front.filter isName = directories path1 := by
    rw [← hfilter]
    apply List.filter_congr
    intro c hc
    rw [isName, hdots c (hmem c hc), Bool.true_and]
    exact Bool.eq_iff_iff.mpr (by simp)
  have hpops : ∀ c ∈ front, isUp c = false := fun c hc =>
    isUp_eq_false_of_isDir (hdots c (hmem c hc))
  rw [resolve, habs, hsplit, run_append, run_of_noPop hpops, Option.bind_some, List.nil_append,
    hnames, ← run_filter, ← directories, run_clamped]

/-! ### Up, and down again -/

theorem excess_relative (n : ℕ) (hmore : ∀ c ∈ more, isName c = true) :
    excess isName isUp (List.replicate n ['.', '.'] ++ more) = n := by
  induction n with
  | zero =>
    rw [List.replicate_zero, List.nil_append]
    induction more with
    | nil => rfl
    | cons c more ih =>
      obtain ⟨hc, hmore⟩ := List.forall_mem_cons.mp hmore
      rw [excess_cons_push (isUp_eq_false_of_isDir (isDir_of_isName hc)) hc, ih hmore]
  | succ n ih => rw [List.replicate_succ, List.cons_append, excess_cons_pop rfl, ih]

theorem survivors_relative (n : ℕ) (hmore : ∀ c ∈ more, isName c = true) :
    survivors isName isUp (List.replicate n ['.', '.'] ++ more) = more := by
  induction n with
  | zero =>
    rw [List.replicate_zero, List.nil_append]
    induction more with
    | nil => rfl
    | cons c more ih =>
      obtain ⟨hc, hmore⟩ := List.forall_mem_cons.mp hmore
      have hzero : excess isName isUp more = 0 := excess_relative 0 hmore
      rw [survivors_cons_keep (isUp_eq_false_of_isDir (isDir_of_isName hc)) hc hzero, ih hmore]
  | succ n ih =>
    have hup : isUp ['.', '.'] = true := rfl
    rw [List.replicate_succ, List.cons_append, survivors_cons_skip, ih]
    exact fun h => Bool.false_ne_true (h.1.symm.trans hup)

/-! ### The relative path -/

theorem toNat_bmod (n : ℕ) {m : ℕ} (h : 2 * n < m) : ((n : ℤ).bmod m).toNat = n := by
  have hlow : -((m : ℤ) / 2) ≤ (n : ℤ) := by omega
  have hhigh : (n : ℤ) < ((m : ℤ) + 1) / 2 := by omega
  rw [Int.bmod_eq_of_le hlow hhigh, Int.toNat_natCast]

theorem sizeToInt_of_lt {n : ℕ} (h : n < 2 ^ 31) : (sizeToInt n).toNat = n :=
  toNat_bmod n (by omega)

/-- A count that is too great for an `int` gets smaller. -/
theorem sizeToInt_lt {n : ℕ} (h : 2 ^ 31 ≤ n) : (sizeToInt n).toNat < n := by
  have hlt : sizeToInt n < (((2 ^ 32 : ℕ) : ℤ) + 1) / 2 := Int.bmod_lt (Nat.two_pow_pos 32)
  norm_num at hlt
  omega

theorem isName_of_mem_directories (hdots : NoDots path) {c : Text} (h : c ∈ directories path) :
    isName c = true := by
  obtain ⟨hmem, hne⟩ := List.mem_filter.mp h
  rw [isName, hdots c hmem, Bool.true_and]
  simpa using hne

theorem isAbsolutePath_fileRelativePath (h1 : isAbsolutePath path1 = true)
    (h2 : isAbsolutePath path2 = true) :
    isAbsolutePath (fileRelativePath path1 path2) = false := by
  have hparts := @isPart_of_mem_relativeParts path1 path2
  rw [fileRelativePath_eq h1 h2, ← Bool.not_eq_true,
    isAbsolutePath_join fun c hc => (hparts c hc).2]
  rintro ⟨c, rest, heq⟩
  exact (hparts [] (heq ▸ List.mem_cons_self ..)).1 rfl

/-- Two paths with their deepest common directory. -/
theorem exists_common (path1 path2 : Text) : ∃ common up rest,
    directories path1 = common ++ up ∧ directories path2 = common ++ rest ∧
      up.length = depthBelow path1 path2 ∧
      relativeParts path1 path2 =
        List.replicate (sizeToInt (depthBelow path1 path2)).toNat ['.', '.'] ++ rest ∧
      ∀ a, up.head? = some a → rest.head? ≠ some a := by
  obtain ⟨common, hd1, hd2, hheads⟩ := stripCommon_spec (directories path1) (directories path2)
  exact ⟨common, _, _, hd1, hd2, rfl, rfl, hheads⟩

section Paths
variable (h1 : isAbsolutePath path1 = true) (h2 : isAbsolutePath path2 = true)
  (hdots1 : NoDots path1) (hdots2 : NoDots path2)
include h1 h2 hdots1

include hdots2 in
/-- The way leads to its goal exactly if the steps upwards can be counted. -/
theorem leads_iff : resolve (fileJoin path1 (fileRelativePath path1 path2)) =
    some (directories path2) ↔ depthBelow path1 path2 < 2 ^ 31 := by
  obtain ⟨common, up, rest, hd1, hd2, hdepth, hparts, -⟩ := exists_common path1 path2
  have hnames : ∀ c ∈ rest, isName c = true := fun c hc =>
    isName_of_mem_directories hdots2 (hd2 ▸ List.mem_append_right _ hc)
  have hlength := congrArg List.length hd1
  rw [List.length_append, hdepth] at hlength
  rw [resolve_fileJoin h1 hdots1 (isAbsolutePath_fileRelativePath h1 h2),
    splitOn_fileRelativePath h1 h2, hparts, excess_relative _ hnames, survivors_relative _ hnames,
    Option.some_inj]
  constructor
  · intro heq
    by_contra hlt
    have hcount := sizeToInt_lt (Nat.le_of_not_lt hlt)
    have hlengths := congrArg List.length heq
    rw [hd2, List.length_append, List.length_append, List.length_take] at hlengths
    omega
  · intro hlt
    have hkeep : (directories path1).length - depthBelow path1 path2 = common.length := by omega
    rw [sizeToInt_of_lt hlt, hkeep, hd1, List.take_left, hd2]

/-- A relative path that leads to the same goal weighs no less, whatever its components weigh. -/
theorem weight_minimal (hsmall : depthBelow path1 path2 < 2 ^ 31) (weight : Text → ℕ)
    (hr : isAbsolutePath r = false)
    (hleads : resolve (fileJoin path1 r) = some (directories path2)) :
    ((directories (fileRelativePath path1 path2)).map weight).sum ≤
      ((directories r).map weight).sum := by
  obtain ⟨common, up, rest, hd1, hd2, hdepth, hparts, hheads⟩ := exists_common path1 path2
  have hlength := congrArg List.length hd1
  rw [List.length_append, hdepth] at hlength
  rw [resolve_fileJoin h1 hdots1 hr, Option.some_inj] at hleads
  have hpops : ∀ c, isUp c = true → weight ['.', '.'] ≤ weight c := fun c hc =>
    le_of_eq (congrArg weight (beq_iff_eq.mp hc).symm)
  have hweight := @weight_le Text isName isUp (directories r) weight _ hpops
  generalize excess isName isUp (directories r) = e at hleads hweight
  generalize survivors isName isUp (directories r) = s at hleads hweight
  rw [hd2] at hleads
  -- what is kept of the first path is common to both
  have hkept : (directories path1).length - e ≤ common.length := by
    by_contra hlt
    have hpos : up ≠ [] := List.ne_nil_of_length_pos (by omega)
    have hindex : (common ++ rest)[common.length]? = (common ++ up)[common.length]? := by
      rw [← hleads, List.getElem?_append_left (by rw [List.length_take]; omega),
        List.getElem?_take_of_lt (Nat.lt_of_not_le hlt), hd1]
    rw [List.getElem?_append_right le_rfl, List.getElem?_append_right le_rfl, Nat.sub_self,
      ← List.head?_eq_getElem?, ← List.head?_eq_getElem?, List.head?_eq_some_head hpos] at hindex
    exact hheads _ (List.head?_eq_some_head hpos) hindex
  have hrest : rest.Sublist s := by
    have hdrop := congrArg (List.drop common.length) hleads
    rw [List.drop_left, List.drop_append, List.drop_of_length_le
      (by rw [List.length_take]; omega), List.nil_append] at hdrop
    rw [← hdrop]
    exact List.drop_sublist ..
  have hsum := (hrest.map weight).sum_le_sum fun _ _ => Nat.zero_le _
  have hdepthle : depthBelow path1 path2 ≤ e := by omega
  have hmul := Nat.mul_le_mul_left (weight ['.', '.']) hdepthle
  rw [splitOn_fileRelativePath h1 h2, hparts, sizeToInt_of_lt hsmall, List.map_append,
    List.sum_append, List.map_replicate, List.sum_replicate, smul_eq_mul,
    Nat.mul_comm (depthBelow path1 path2)]
  omega

end Paths

/-- The length of a joined path. -/
theorem length_join (hne : parts ≠ []) :
    (parts.map (·.length + 1)).sum = (['/'].intercalate parts).length + 1 := by
  induction parts with
  | nil => exact absurd rfl hne
  | cons c parts ih =>
    by_cases hnil : parts = []
    · subst hnil
      simp
    · rw [List.map_cons, List.sum_cons, ih hnil, List.intercalate_cons_of_ne_nil hnil]
      simp
      omega

theorem length_directories (path : Text) :
    ((directories path).map (·.length + 1)).sum ≤ path.length + 1 := by
  have hjoin := length_join (List.splitOn_ne_nil '/' path)
  rw [List.intercalate_splitOn] at hjoin
  rw [← hjoin]
  exact (List.filter_sublist.map _).sum_le_sum fun _ _ => Nat.zero_le _

/-- The way from a directory to another place, as short as it can be. -/
structure LeadsShortest (path1 path2 r : Text) : Prop where
  relative : isAbsolutePath r = false
  leads : resolve (fileJoin path1 r) = some (directories path2)
  upFirst : ∃ names, directories r =
    List.replicate (depthBelow path1 path2) ['.', '.'] ++ names ∧ ['.', '.'] ∉ names
  shortest : ∀ r', isAbsolutePath r' = false →
    resolve (fileJoin path1 r') = some (directories path2) →
    (directories r).length ≤ (directories r').length ∧ r.length ≤ r'.length

/-- `FileRelativePath` gives the shortest way exactly if an `int` can count the steps upwards. -/
theorem leadsShortest_iff {path1 path2 : Text} (h1 : isAbsolutePath path1 = true)
    (h2 : isAbsolutePath path2 = true) (hdots1 : NoDots path1) (hdots2 : NoDots path2) :
    LeadsShortest path1 path2 (fileRelativePath path1 path2) ↔
      depthBelow path1 path2 < 2 ^ 31 := by
  refine ⟨fun h => (leads_iff h1 h2 hdots1 hdots2).mp h.leads, fun hsmall => ?_⟩
  refine ⟨isAbsolutePath_fileRelativePath h1 h2, (leads_iff h1 h2 hdots1 hdots2).mpr hsmall, ?_, ?_⟩
  · obtain ⟨common, up, rest, -, hd2, -, hparts, -⟩ := exists_common path1 path2
    refine ⟨rest, ?_, fun hmem => ?_⟩
    · rw [splitOn_fileRelativePath h1 h2, hparts, sizeToInt_of_lt hsmall]
    · have hname := isName_of_mem_directories hdots2 (hd2 ▸ List.mem_append_right common hmem)
      exact absurd hname (by decide)
  · intro r' hr' hleads'
    have hminimal (weight : Text → ℕ) :=
      weight_minimal h1 h2 hdots1 hsmall weight hr' hleads'
    constructor
    · simpa using hminimal fun _ => 1
    · by_cases hnil : relativeParts path1 path2 = []
      · rw [fileRelativePath_eq h1 h2, hnil]
        exact Nat.zero_le _
      · have hlength := length_join hnil
        rw [← fileRelativePath_eq h1 h2] at hlength
        have hle := (hminimal (·.length + 1)).trans (length_directories r')
        rw [splitOn_fileRelativePath h1 h2, hlength] at hle
        exact Nat.le_of_succ_le_succ hle

theorem leadsShortest_sibling : LeadsShortest "/a/b//c/".toList "/a/d".toList
    (fileRelativePath "/a/b//c/".toList "/a/d".toList) := by
  have hdepth : depthBelow "/a/b//c/".toList "/a/d".toList = 2 := by decide
  have hiff := @leadsShortest_iff "/a/b//c/".toList "/a/d".toList
    (by decide) (by decide) (by decide) (by decide)
  rw [hdepth] at hiff
  exact hiff.mpr (by norm_num)

/-- A directory at some depth. -/
def deep (depth : ℕ) : Text := '/' :: ['/'].intercalate (List.replicate depth ['a'])

theorem splitOn_deep {depth : ℕ} (hpos : depth ≠ 0) :
    (deep depth).splitOn '/' = [] :: List.replicate depth ['a'] := by
  have hjoin : (['/'].intercalate (List.replicate depth ['a'])).splitOn '/' =
      List.replicate depth ['a'] := by
    rw [splitOn_join fun c hc => by rw [List.eq_of_mem_replicate hc]; decide, if_neg (by simpa)]
  rw [deep, List.splitOn_cons_eq_if_modifyHead, if_pos (by rfl), hjoin]

theorem not_leadsShortest_deep {depth : ℕ} (h : 2 ^ 31 ≤ depth) :
    isAbsolutePath (deep depth) = true ∧ NoDots (deep depth) ∧
      ¬ LeadsShortest (deep depth) ['/'] (fileRelativePath (deep depth) ['/']) := by
  have hsplit := @splitOn_deep depth (by omega)
  have hdots : NoDots (deep depth) := by
    rw [NoDots, hsplit]
    refine List.forall_mem_cons.mpr ⟨rfl, fun c hc => ?_⟩
    rw [List.eq_of_mem_replicate hc]
    rfl
  have hdepth : depthBelow (deep depth) ['/'] = depth := by
    have hdirs : directories (deep depth) = List.replicate depth ['a'] := by
      rw [directories, hsplit, List.filter_cons_of_neg (by simp), List.filter_eq_self]
      intro c hc
      rw [List.eq_of_mem_replicate hc]
      rfl
    have hroot : directories ['/'] = [] := by decide
    have hstrip (l : List Text) : stripCommon l [] = (l, []) := by cases l <;> rfl
    rw [depthBelow, hdirs, hroot, hstrip, List.length_replicate]
  refine ⟨rfl, hdots, fun hleads => ?_⟩
  have hlt := (leads_iff rfl rfl hdots (by decide)).mp hleads.leads
  rw [hdepth] at hlt
  omega

/-- From a depth of 2^31 no step is made upwards. -/
theorem not_leadsShortest : ∃ path1 path2, isAbsolutePath path1 = true ∧
    isAbsolutePath path2 = true ∧ NoDots path1 ∧ NoDots path2 ∧
      ¬ LeadsShortest path1 path2 (fileRelativePath path1 path2) := by
  obtain ⟨habs, hdots, hnot⟩ := @not_leadsShortest_deep (2 ^ 31) le_rfl
  exact ⟨deep (2 ^ 31), ['/'], habs, rfl, hdots, by decide, hnot⟩

end Awb
