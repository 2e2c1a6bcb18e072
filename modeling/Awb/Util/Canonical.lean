import Awb.Util.LexicalPath
import Awb.Lib.Splitting
import Awb.Workspace.ExpandPath

/-! `CanonicalFilename` keeps the empty components of a path on the same stack as its directories.
The path keeps its meaning as long as no `..` removes one of them in the place of a directory. -/

namespace Awb
open PushPop WorkspaceConfig

/-- `CanonicalFilename` that may return false. Nothing is on the stack when it does. -/
def tryCanonicalFilename (globber : Globber) (original : Text) : Bool × Text :=
  let canonical := expandTildeUser globber original
  match canonicalParts (isAbsolutePath canonical) [] (splitString ['/'] canonical) with
  | some path => (true, ['/'].intercalate path)
  | none => (false, [])

variable {globber : Globber} {path : Text} {l stack : List Text}

/-- If it is to fail, `CanonicalFilename` exits where it returns false otherwise. -/
theorem canonicalFilename_eq_some_iff {canonical : Text} :
    canonicalFilename (expandTildeUser globber) path = some canonical ↔
      tryCanonicalFilename globber path = (true, canonical) := by
  simp only [canonicalFilename, tryCanonicalFilename]
  cases canonicalParts (isAbsolutePath (expandTildeUser globber path)) []
    (splitString ['/'] (expandTildeUser globber path)) <;> simp

/-- The loop over the components of a relative path. -/
theorem canonicalParts_relative (stack l : List Text) :
    canonicalParts false stack l = run isDir isUp false stack l := by
  induction l generalizing stack with
  | nil => rfl
  | cons c l ih =>
    rw [canonicalParts, run]
    by_cases hdot : c = ['.']
    · subst hdot
      exact ih stack
    · by_cases hup : c = ['.', '.']
      · subst hup
        have hisUp : isUp ['.', '.'] = true := rfl
        rw [if_neg hdot, if_pos rfl, if_pos hisUp]
        simp only [Bool.false_eq_true, if_false, ih]
      · have hdir : isDir c = true := by simp [isDir, hdot, hup]
        rw [if_neg hdot, if_neg hup, if_neg (by simp [isUp, hup]), if_pos hdir, ih]

/-- The loop over an absolute path, whose first component is empty and stays. -/
theorem canonicalParts_absolute (stack l : List Text) :
    canonicalParts true ([] :: stack) l = (run isDir isUp true stack l).map ([] :: ·) := by
  induction l generalizing stack with
  | nil => rfl
  | cons c l ih =>
    rw [canonicalParts, run]
    by_cases hdot : c = ['.']
    · subst hdot
      exact ih stack
    · by_cases hup : c = ['.', '.']
      · subst hup
        have hisUp : isUp ['.', '.'] = true := rfl
        rw [if_neg hdot, if_pos rfl, if_pos rfl, if_pos hisUp]
        rcases stack with _ | ⟨d, stack⟩
        · exact ih []
        · rw [if_pos (by simp), if_neg (by simp)]
          exact ih (d :: stack).dropLast
      · have hdir : isDir c = true := by simp [isDir, hdot, hup]
        rw [if_neg hdot, if_neg hup, if_neg (by simp [isUp, hup]), if_pos hdir]
        exact ih (stack ++ [c])

/-! ### What is written -/

theorem slash_notMem_splitString {c : Text} (h : c ∈ splitString ['/'] path) : '/' ∉ c := by
  by_cases hc : c = []
  · subst hc
    exact List.not_mem_nil
  · have hmem : c ∈ (splitString ['/'] path).filter (· ≠ []) :=
      List.mem_filter.mpr ⟨h, by simpa using hc⟩
    rw [filter_splitString, List.splitOn_eq_splitOnP] at hmem
    intro hslash
    have hclean := (Splitting.fullSplit_splitOnP (· == '/') path).clean c
      (List.mem_filter.mp hmem).1 '/' hslash
    exact absurd hclean (by decide)

/-- An absolute path begins with an empty component. -/
theorem splitString_absolute (h : isAbsolutePath path = true) :
    ∃ rest, splitString ['/'] path = [] :: rest := by
  rcases path with _ | ⟨c, path⟩
  · cases h
  · obtain rfl : c = '/' := by simpa [isAbsolutePath] using h
    rcases path with _ | ⟨d, path⟩
    · exact ⟨[], rfl⟩
    · refine ⟨(d :: path).splitOnP (· ∈ ['/']), ?_⟩
      show ('/' :: d :: path).splitOnP (· ∈ ['/']) = _
      rw [List.splitOnP_cons_eq_if_modifyHead, if_pos (by simp)]

/-! ### The condition -/

/-- The result of `CanonicalFilename` means what the path means. -/
structure KeepsMeaning (globber : Globber) (path : Text) : Prop where
  returns : (tryCanonicalFilename globber path).1 = false ↔ resolve path = none
  absolute : (tryCanonicalFilename globber path).1 = true →
    isAbsolutePath (tryCanonicalFilename globber path).2 = isAbsolutePath path
  clean : (tryCanonicalFilename globber path).1 = true →
    ∀ c ∈ (tryCanonicalFilename globber path).2.splitOn '/', c ≠ ['.'] ∧ c ≠ ['.', '.']
  meaning : (tryCanonicalFilename globber path).1 = true →
    resolve (tryCanonicalFilename globber path).2 = resolve path

/-- An empty component counts as a directory for the `..` behind it, but it never stands in for
one: in `excess` on `isDir` it counts, and in `excess` on `isName` it does not. -/
structure SlashesHarmless (path : Text) : Prop where
  /-- A directory that is not removed if empty components count is not removed if they do not. -/
  names : isAbsolutePath path = true ∨ excess isDir isUp (splitString ['/'] path) = 0 →
    SameSurvival isName isDir isUp (splitString ['/'] path)
  /-- The same for the start of a relative path. -/
  start : isAbsolutePath path = false → excess isDir isUp (splitString ['/'] path) = 0 →
    excess isName isUp (splitString ['/'] path) = 0
  /-- Something behind the leading slash of an absolute path is not removed, empty or not. -/
  root : isAbsolutePath path = true → ∃ front dir rest,
    (splitString ['/'] path).tail = front ++ dir :: rest ∧ isDir dir = true ∧
      excess isDir isUp rest = 0
  /-- In a relative path, an empty component that is not removed has something left before it, or
  nothing behind it. -/
  leading : isAbsolutePath path = false → excess isDir isUp (splitString ['/'] path) = 0 →
    ∀ front more, splitString ['/'] path = front ++ [] :: more → excess isDir isUp more = 0 →
      front.countP isUp = front.countP isDir →
      ∀ before dir rest, more = before ++ dir :: rest → isDir dir = true →
        excess isDir isUp rest ≠ 0

theorem mem_of_survivor {c : Text} {rest : List Text}
    (hrest : rest.Sublist (splitString ['/'] path)) (h : c ∈ survivors isDir isUp rest) :
    '/' ∉ c ∧ isDir c = true := by
  obtain ⟨front, back, -, -, hdir, -⟩ := mem_survivors_iff.mp h
  exact ⟨slash_notMem_splitString ((survivors_sublist.trans hrest).subset h), hdir⟩

theorem isDir_of_absolute {rest : List Text} (hrest : splitString ['/'] path = [] :: rest) :
    ∀ c ∈ [] :: survivors isDir isUp rest, '/' ∉ c ∧ isDir c = true :=
  List.forall_mem_cons.mpr ⟨⟨List.not_mem_nil, rfl⟩, fun _ hc =>
    mem_of_survivor (hrest ▸ List.sublist_cons_self ..) hc⟩

/-- When a result is returned, it has to be absolute like the path and name the same directories. -/
theorem keepsMeaning_iff_of_parts {parts dirs : List Text}
    (hresult : tryCanonicalFilename globber path = (true, ['/'].intercalate parts))
    (hparts : ∀ c ∈ parts, '/' ∉ c ∧ isDir c = true) (hdirs : resolve path = some dirs) :
    KeepsMeaning globber path ↔
      isAbsolutePath (['/'].intercalate parts) = isAbsolutePath path ∧
        parts.filter isName = dirs := by
  have hslash : ∀ c ∈ parts, '/' ∉ c := fun c hc => (hparts c hc).1
  have hjoin : resolve (['/'].intercalate parts) = some (parts.filter isName) :=
    resolve_join hslash fun c hc => isUp_eq_false_of_isDir (hparts c hc).2
  constructor
  · rintro ⟨-, habsolute, -, hmeaning⟩
    rw [hresult] at habsolute hmeaning
    refine ⟨habsolute rfl, Option.some.inj ?_⟩
    rw [← hjoin, ← hdirs]
    exact hmeaning rfl
  · rintro ⟨habsolute, hfilter⟩
    refine ⟨?_, ?_, ?_, ?_⟩
    · rw [hresult, hdirs]
      exact ⟨fun h => absurd h.symm Bool.false_ne_true, fun h => absurd h (by simp)⟩
    · rw [hresult]
      exact fun _ => habsolute
    · rw [hresult]
      intro _ c hc
      rw [splitOn_join hslash] at hc
      have hdir : isDir c = true := by
        split at hc
        next => rw [List.mem_singleton.mp hc]; rfl
        next => exact (hparts c hc).2
      simpa [isDir] using hdir
    · rw [hresult, hjoin, hdirs, hfilter]
      exact fun _ => rfl

theorem expandTildeUser_of_head (h : path.head? ≠ some '~') :
    expandTildeUser globber path = path := if_neg h

theorem tryCanonicalFilename_absolute {rest : List Text} (habs : isAbsolutePath path = true)
    (hrest : splitString ['/'] path = [] :: rest) :
    tryCanonicalFilename globber path =
      (true, ['/'].intercalate ([] :: survivors isDir isUp rest)) := by
  have hhead : path.head? ≠ some '~' := by
    rw [isAbsolutePath, decide_eq_true_iff] at habs
    rw [habs]
    decide
  have hparts : canonicalParts true [] ([] :: rest) =
      some ([] :: survivors isDir isUp rest) := by
    have hstep : canonicalParts true [] ([] :: rest) = canonicalParts true [[]] rest := rfl
    rw [hstep, canonicalParts_absolute, run_empty, if_pos (Or.inl rfl), Option.map_some]
  rw [tryCanonicalFilename, expandTildeUser_of_head hhead, habs, hrest, hparts]

theorem tryCanonicalFilename_relative (hhead : path.head? ≠ some '~')
    (hrel : isAbsolutePath path = false) :
    tryCanonicalFilename globber path =
      if excess isDir isUp (splitString ['/'] path) = 0 then
        (true, ['/'].intercalate (survivors isDir isUp (splitString ['/'] path)))
      else (false, []) := by
  rw [tryCanonicalFilename, expandTildeUser_of_head hhead, hrel, canonicalParts_relative, run_empty]
  by_cases hzero : excess isDir isUp (splitString ['/'] path) = 0
  · rw [if_pos (Or.inr hzero), if_pos hzero]
  · rw [if_neg (by simp [hzero]), if_neg hzero]

/-- An absolute path. -/
theorem keepsMeaning_iff_absolute (habs : isAbsolutePath path = true) :
    KeepsMeaning globber path ↔ SlashesHarmless path := by
  obtain ⟨rest, hrest⟩ := splitString_absolute habs
  have hdirs : resolve path = some (survivors isName isUp rest) := by
    rw [resolve_eq, habs, run_empty, if_pos (Or.inl rfl), hrest,
      survivors_cons_skip fun h => Bool.false_ne_true h.2.1]
  have hparts := isDir_of_absolute hrest
  have hroot : isAbsolutePath (['/'].intercalate ([] :: survivors isDir isUp rest)) = true ↔
      ∃ front dir back, rest = front ++ dir :: back ∧ isDir dir = true ∧
        excess isDir isUp back = 0 := by
    rw [isAbsolutePath_join fun c hc => (hparts c hc).1]
    constructor
    · rintro ⟨c, more, heq⟩
      have hc : c ∈ survivors isDir isUp rest := (List.cons.inj heq).2 ▸ List.mem_cons_self ..
      obtain ⟨front, back, hsplit, -, hdir, hback⟩ := mem_survivors_iff.mp hc
      exact ⟨front, c, back, hsplit, hdir, hback⟩
    · rintro ⟨front, dir, back, hsplit, hdir, hback⟩
      have hmem : dir ∈ survivors isDir isUp rest := mem_survivors_iff.mpr
        ⟨front, back, hsplit, isUp_eq_false_of_isDir hdir, hdir, hback⟩
      obtain ⟨c, more, heq⟩ := List.exists_cons_of_ne_nil (List.ne_nil_of_mem hmem)
      exact ⟨c, more, by rw [heq]⟩
  have hnames : SameSurvival isName isDir isUp (splitString ['/'] path) ↔
      SameSurvival isName isDir isUp rest := by
    rw [hrest, sameSurvival_cons]
    exact and_iff_right fun _ h => absurd h Bool.false_ne_true
  rw [keepsMeaning_iff_of_parts (tryCanonicalFilename_absolute habs hrest) hparts hdirs, habs,
    hroot, List.filter_cons_of_neg (by decide),
    filter_survivors_iff fun _ => isDir_of_isName, ← hnames]
  have hnot : ¬ isAbsolutePath path = false := fun h => Bool.false_ne_true (h.symm.trans habs)
  constructor
  · rintro ⟨hexists, hsame⟩
    exact ⟨fun _ => hsame, fun h => absurd h hnot, fun _ => by rw [hrest]; exact hexists,
      fun h => absurd h hnot⟩
  · intro h
    refine ⟨?_, h.names (Or.inl habs)⟩
    have hexists := h.root habs
    rwa [hrest] at hexists

/-- The result of a relative path is absolute if an empty component comes first and is followed. -/
theorem leading_iff (hzero : excess isDir isUp (splitString ['/'] path) = 0) :
    isAbsolutePath (['/'].intercalate (survivors isDir isUp (splitString ['/'] path))) = false ↔
      ∀ front more, splitString ['/'] path = front ++ [] :: more → excess isDir isUp more = 0 →
        front.countP isUp = front.countP isDir →
        ∀ before dir rest, more = before ++ dir :: rest → isDir dir = true →
          excess isDir isUp rest ≠ 0 := by
  have hcount (l : List Text) : l.countP (fun c => !isUp c && isDir c) = l.countP isDir := by
    apply List.countP_congr
    intro c _
    cases hdir : isDir c with
    | true => simp [isUp_eq_false_of_isDir hdir]
    | false => simp
  rw [← Bool.not_eq_true, isAbsolutePath_join fun c hc =>
    (mem_of_survivor (List.Sublist.refl _) hc).1]
  constructor
  · rintro hnot front more hsplit hmore hbalance before dir rest hrest hdir hzero'
    apply hnot
    have htail : excess isDir isUp ([] :: more) = 0 := by
      rw [excess_cons_push rfl rfl, hmore]
    have hfront : survivors isDir isUp front = [] := by
      apply List.eq_nil_of_length_eq_zero
      have hlength := @length_survivors _ isDir isUp front
      have hexcess : excess isDir isUp front = 0 := by
        rw [← hzero, hsplit, excess_append_of_zero htail]
      rw [hcount] at hlength
      omega
    have hmem : dir ∈ survivors isDir isUp more := mem_survivors_iff.mpr
      ⟨before, rest, hrest, isUp_eq_false_of_isDir hdir, hdir, hzero'⟩
    obtain ⟨c, others, heq⟩ := List.exists_cons_of_ne_nil (List.ne_nil_of_mem hmem)
    refine ⟨c, others, ?_⟩
    rw [hsplit, survivors_append_of_zero htail, hfront, survivors_cons_keep rfl rfl hmore, heq]
    rfl
  · rintro hall ⟨c, others, heq⟩
    obtain ⟨front, more, hsplit, hfront, -, -, hmore, hothers⟩ := survivors_eq_cons heq
    have htail : excess isDir isUp ([] :: more) = 0 := by
      rw [excess_cons_push rfl rfl, hmore]
    have hbalance : front.countP isUp = front.countP isDir := by
      have hlength := @length_survivors _ isDir isUp front
      have hexcess : excess isDir isUp front = 0 := by
        rw [← hzero, hsplit, excess_append_of_zero htail]
      rw [hcount, hfront, List.length_nil] at hlength
      omega
    have hmem : c ∈ survivors isDir isUp more := hothers ▸ List.mem_cons_self ..
    obtain ⟨before, rest, hrest, -, hdir, hzero'⟩ := mem_survivors_iff.mp hmem
    exact hall front more hsplit hmore hbalance before c rest hrest hdir hzero'

/-- A relative path. -/
theorem keepsMeaning_iff_relative (hhead : path.head? ≠ some '~')
    (hrel : isAbsolutePath path = false) :
    KeepsMeaning globber path ↔ SlashesHarmless path := by
  have htry := @tryCanonicalFilename_relative globber _ hhead hrel
  have hresolve : resolve path = if excess isName isUp (splitString ['/'] path) = 0 then
      some (survivors isName isUp (splitString ['/'] path)) else none := by
    rw [resolve_eq, hrel, run_empty]
    simp only [Bool.false_eq_true, false_or]
  have hnot : ¬ isAbsolutePath path = true := fun h => Bool.false_ne_true (hrel.symm.trans h)
  by_cases hzero : excess isDir isUp (splitString ['/'] path) = 0
  · rw [if_pos hzero] at htry
    by_cases hname : excess isName isUp (splitString ['/'] path) = 0
    · rw [if_pos hname] at hresolve
      rw [keepsMeaning_iff_of_parts htry (fun c => mem_of_survivor (List.Sublist.refl _)) hresolve,
        hrel, leading_iff hzero, filter_survivors_iff fun _ => isDir_of_isName]
      constructor
      · rintro ⟨hleading, hsame⟩
        exact ⟨fun _ => hsame, fun _ _ => hname, fun h => absurd h hnot, fun _ _ => hleading⟩
      · exact fun h => ⟨h.leading hrel hzero, h.names (Or.inr hzero)⟩
    · rw [if_neg hname] at hresolve
      constructor
      · intro h
        have hfalse := h.returns.mpr hresolve
        rw [htry] at hfalse
        exact absurd hfalse.symm Bool.false_ne_true
      · exact fun h => absurd (h.start hrel hzero) hname
  · rw [if_neg hzero] at htry
    have hname : excess isName isUp (splitString ['/'] path) ≠ 0 := fun h =>
      hzero (Nat.le_zero.mp (h ▸ excess_le fun _ => isDir_of_isName))
    rw [if_neg hname] at hresolve
    have hfalse : ¬ (tryCanonicalFilename globber path).1 = true := by
      rw [htry]
      exact Bool.false_ne_true
    constructor
    · exact fun _ => ⟨fun h => absurd h (not_or.mpr ⟨hnot, hzero⟩), fun _ h => absurd h hzero,
        fun h => absurd h hnot, fun _ h => absurd h hzero⟩
    · refine fun _ => ⟨?_, fun h => absurd h hfalse, fun h => absurd h hfalse,
        fun h => absurd h hfalse⟩
      rw [hresolve, htry]
      exact ⟨fun _ => rfl, fun _ => rfl⟩

/-- A path that names no home directory keeps its meaning exactly if no `..` removes an empty
component where that matters. -/
theorem keepsMeaning_iff (globber : Globber) {path : Text} (hhead : path.head? ≠ some '~') :
    KeepsMeaning globber path ↔ SlashesHarmless path := by
  cases habs : isAbsolutePath path with
  | true => exact keepsMeaning_iff_absolute habs
  | false => exact keepsMeaning_iff_relative hhead habs

/-- Nobody has a home directory, and no pattern matches. -/
def noGlobber : Globber := ⟨fun _ => none, fun _ => []⟩

theorem keepsMeaning_parent : KeepsMeaning noGlobber "lib//a/../b".toList :=
  (keepsMeaning_iff noGlobber (by decide)).mpr
    ⟨fun _ => (filter_survivors_iff fun _ => isDir_of_isName).mp (by decide), fun _ _ => by decide,
      fun h => absurd h (by decide), fun _ h => (leading_iff h).mp (by decide)⟩

/-- The `..` of `/a//..` removes the empty component in the place of `a`. -/
theorem not_keepsMeaning : ¬ KeepsMeaning noGlobber "/a//..".toList := by
  intro h
  have hmeaning := h.meaning (by decide)
  exact absurd hmeaning (by decide)

/-! ### Canonical names once more -/

/-- The components of a text are those it was joined of, unless it is a single slash. -/
theorem splitString_join {parts : List Text} (hslash : ∀ c ∈ parts, '/' ∉ c)
    (hempty : ['/'].intercalate parts ≠ []) (hroot : ['/'].intercalate parts ≠ ['/']) :
    splitString ['/'] (['/'].intercalate parts) = parts := by
  have hne : parts ≠ [] := fun h => hempty (h ▸ rfl)
  have hpred : (fun x : Char => x == '/') = fun x => decide (x ∈ ['/']) := by
    funext x
    simp [beq_eq_decide]
  have hsplit := List.splitOn_intercalate '/' hslash hne
  rw [List.splitOn_eq_splitOnP, hpred] at hsplit
  rcases hjoin : ['/'].intercalate parts with _ | ⟨c, _ | ⟨d, rest⟩⟩
  · exact absurd hjoin hempty
  · -- `SplitString` looks at a single character on its own
    have hc : c ∉ ['/'] := fun h => hroot (List.mem_singleton.mp h ▸ hjoin)
    rw [hjoin, List.splitOnP_eq_singleton (by simpa using hc)] at hsplit
    rw [splitString, if_neg hc]
    exact hsplit
  · rw [hjoin] at hsplit
    exact hsplit

/-- Directories are kept. -/
theorem survivors_of_isDir {parts : List Text} (h : ∀ c ∈ parts, isDir c = true) :
    survivors isDir isUp parts = parts ∧ excess isDir isUp parts = 0 := by
  have hpop : ∀ c ∈ parts, isUp c = false := fun c hc => isUp_eq_false_of_isDir (h c hc)
  have hrun : run isDir isUp false [] parts = some ([] ++ parts.filter isDir) :=
    run_of_noPop hpop
  rw [run_empty, List.nil_append, List.filter_eq_self.mpr h] at hrun
  by_cases hzero : excess isDir isUp parts = 0
  · rw [if_pos (.inr hzero)] at hrun
    exact ⟨Option.some.inj hrun, hzero⟩
  · rw [if_neg (by simpa using hzero)] at hrun
    cases hrun

/-- What is returned is joined of directories. -/
theorem exists_canonicalParts {canonical : Text} (hhead : path.head? ≠ some '~')
    (htry : tryCanonicalFilename globber path = (true, canonical)) :
    ∃ parts, canonical = ['/'].intercalate parts ∧
      ∀ c ∈ parts, '/' ∉ c ∧ isDir c = true := by
  cases habs : isAbsolutePath path with
  | true =>
    obtain ⟨rest, hrest⟩ := splitString_absolute habs
    rw [tryCanonicalFilename_absolute habs hrest] at htry
    exact ⟨_, (Prod.ext_iff.mp htry).2.symm, isDir_of_absolute hrest⟩
  | false =>
    rw [tryCanonicalFilename_relative hhead habs] at htry
    split_ifs at htry
    · exact ⟨_, (Prod.ext_iff.mp htry).2.symm, fun c => mem_of_survivor (List.Sublist.refl _)⟩
    · exact absurd (Prod.ext_iff.mp htry).1 Bool.false_ne_true

/-- A canonical name that names no home directory stays as it is, unless it is the root. -/
theorem tryCanonicalFilename_canonical {canonical : Text} (hhead : path.head? ≠ some '~')
    (htry : tryCanonicalFilename globber path = (true, canonical))
    (hcanonical : canonical.head? ≠ some '~') :
    tryCanonicalFilename globber canonical = (true, canonical) ↔ canonical ≠ ['/'] := by
  obtain ⟨parts, hjoin, hparts⟩ := exists_canonicalParts hhead htry
  constructor
  · -- the root is read as one empty component, and joined of it again it is empty
    rintro hagain rfl
    have hroot : tryCanonicalFilename globber ['/'] = (true, []) := rfl
    rw [hroot] at hagain
    cases hagain
  · intro hroot
    by_cases hempty : canonical = []
    · subst hempty
      rfl
    · have hsplit : splitString ['/'] canonical = parts := by
        rw [hjoin] at hempty hroot ⊢
        exact splitString_join (fun c hc => (hparts c hc).1) hempty hroot
      have hdirs := fun c hc => (hparts c hc).2
      cases habs : isAbsolutePath canonical with
      | true =>
        obtain ⟨rest, hrest⟩ := splitString_absolute habs
        obtain rfl : parts = [] :: rest := hsplit.symm.trans hrest
        rw [tryCanonicalFilename_absolute habs hrest, hjoin,
          (survivors_of_isDir (List.forall_mem_cons.mp hdirs).2).1]
      | false =>
        obtain ⟨hsurvivors, hzero⟩ := survivors_of_isDir hdirs
        rw [tryCanonicalFilename_relative hcanonical habs, hsplit, if_pos hzero, hsurvivors, hjoin]

theorem tryCanonicalFilename_twice :
    tryCanonicalFilename noGlobber "lib/b".toList = (true, "lib/b".toList) :=
  (@tryCanonicalFilename_canonical noGlobber "lib/a/../b".toList "lib/b".toList (by decide)
    (by decide) (by decide)).mpr (by decide)

end Awb
