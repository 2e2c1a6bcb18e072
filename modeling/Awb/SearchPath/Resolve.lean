import Awb.Lib.Splitting
import Awb.SearchPath.Regex
import Awb.Util.LexicalPath

/-! `resolve` looks a name up in the directories of a search path, and `unresolve` goes back from an
absolute name. The link-free form of a name is that of its directory. -/

namespace Awb.SearchPath
open PushPop

/-- What Perl asks the system for. -/
structure FileSystem where
  cwd : Text
  fileExists : Text → Bool
  isDir : Text → Bool
  realpath : Text → Text

/-- The absolute path with these components. -/
def absPath (comps : List Text) : Text := '/' :: ['/'].intercalate comps

/-- The components that `canonpath` leaves of an absolute path. -/
def canonComps (path : Text) : List Text :=
  ((path.splitOn '/').filter fun c => c ≠ [] && c ≠ ['.']).dropWhile isUp

namespace FileSystem

/-- The components of `rel2abs`. -/
def rel2abs (fs : FileSystem) (file : Text) : List Text :=
  canonComps (if isAbsolutePath file then file else fs.cwd ++ '/' :: file)

/-- `_delinkify`: the links of a directory are followed, and otherwise those of the directory that a
file is in. -/
def delinkify (fs : FileSystem) (file : Text) : Text :=
  let comps := fs.rel2abs file
  if fs.isDir (absPath comps) then fs.realpath (absPath comps)
  else
    let dir := absPath comps.dropLast
    (if fs.isDir dir then fs.realpath dir else dir) ++ '/' :: comps.getLastD ['/']

/-- `resolve`. -/
def resolve (fs : FileSystem) (path : List Text) (file : Text) : Option Text :=
  match path.find? fun p => fs.fileExists (p ++ '/' :: file) with
  | some p => some (p ++ '/' :: file)
  | none => if fs.fileExists file then some (fs.delinkify file) else none

/-- The loop of `unresolve` over the directories that are left. -/
def unresolveFrom (rx : PerlRegex) (fs : FileSystem) (path : List Text) (absfile : Text) :
    List Text → Except Text (Option Text)
  | [] => .ok none
  | p :: rest =>
    match rx.behind p absfile with
    | .error message => .error message
    | .ok none => unresolveFrom rx fs path absfile rest
    | .ok (some name) =>
      if fs.resolve path name = some absfile then .ok (some name)
      else unresolveFrom rx fs path absfile rest

/-- `unresolve`. -/
def unresolve (rx : PerlRegex) (fs : FileSystem) (path : List Text) (absfile : Text) :
    Except Text (Option Text) := fs.unresolveFrom rx path (fs.delinkify absfile) path

/-- There is no symbolic link in an absolute path: its real path is what it means lexically. -/
structure LinkFree (fs : FileSystem) (file : Text) : Prop where
  whole : fs.isDir (absPath (canonComps file)) = true →
    fs.realpath (absPath (canonComps file)) =
      absPath (survivors isName isUp (canonComps file))
  dir : fs.isDir (absPath (canonComps file).dropLast) = true ∧
    fs.realpath (absPath (canonComps file).dropLast) =
      absPath (survivors isName isUp (canonComps file).dropLast)
  up : (canonComps file).getLast? = some ['.', '.'] →
    fs.isDir (absPath (canonComps file)) = true

end FileSystem

/-- Components that a real path can have. -/
def Names (comps : List Text) : Prop := ∀ c ∈ comps, isName c = true ∧ '/' ∉ c

/-- What has to hold of a name for it to be found again. -/
structure Canonical (fs : FileSystem) (d f : Text) : Prop where
  names : ∀ c ∈ f.splitOn '/', isName c = true
  root : d = ['/'] → '/' ∉ f ∧ fs.isDir ('/' :: f) = false

/-! ### The components of a path -/

variable {fs : FileSystem} {names comps : List Text} {d f file name : Text}

/-- The parts between the slashes of an absolute path, behind the first one. -/
def slashParts (comps : List Text) : List Text := if comps = [] then [[]] else comps

theorem splitOn_absPath (h : ∀ c ∈ comps, '/' ∉ c) :
    (absPath comps).splitOn '/' = [] :: slashParts comps := by
  have hcons : absPath comps = [] ++ '/' :: ['/'].intercalate comps := rfl
  rw [hcons, List.splitOn_append_cons_self, splitOn_join h, List.splitOn_nil]
  rfl

theorem text_eq_iff {a b : Text} : a = b ↔ a.splitOn '/' = b.splitOn '/' := by
  refine ⟨fun h => h ▸ rfl, fun h => ?_⟩
  rw [← @List.intercalate_splitOn _ a _ _ '/', h, List.intercalate_splitOn]

theorem Names.slash (h : Names comps) : ∀ c ∈ comps, '/' ∉ c := fun c hc => (h c hc).2

theorem nil_notMem_of_names (h : ∀ c ∈ comps, isName c = true) : [] ∉ comps :=
  fun hmem => by cases h [] hmem

theorem survivors_of_names (h : ∀ c ∈ comps, isName c = true) :
    survivors isName isUp comps = comps := by
  have hrun : run isName isUp true [] comps = some ([] ++ comps.filter isName) :=
    run_of_noPop fun c hc => isUp_eq_false_of_isDir (isDir_of_isName (h c hc))
  rw [run_clamped] at hrun
  have hfilter : comps.filter isName = comps := List.filter_eq_self.mpr h
  simpa [hfilter] using hrun

theorem isName_of_mem_survivors {c : Text} (h : c ∈ survivors isName isUp comps) :
    isName c = true := by
  induction comps with
  | nil => cases h
  | cons a comps ih =>
    rw [survivors] at h
    split_ifs at h with hkeep
    · rcases List.mem_cons.mp h with rfl | h
      · simp only [Bool.and_eq_true] at hkeep
        exact hkeep.1.2
      · exact ih h
    · exact ih h

/-- Below a directory the components of a name come behind those of the directory. -/
theorem canonComps_below (hnames : Names names) (f : Text) :
    canonComps (absPath names ++ '/' :: f) =
      (names ++ (f.splitOn '/').filter fun c => c ≠ [] && c ≠ ['.']).dropWhile isUp := by
  have hfilter : names.filter (fun c => c ≠ [] && c ≠ ['.']) = names := by
    refine List.filter_eq_self.mpr fun c hc => ?_
    have hname := (hnames c hc).1
    simp only [isName, isDir, Bool.and_eq_true, bne_iff_ne] at hname
    simp [hname.1.1, hname.2]
  rw [canonComps, List.splitOn_append_cons_self, splitOn_absPath hnames.slash, List.filter_append,
    slashParts]
  split
  next hnil => simp [hnil]
  next => simp only [List.filter_cons, hfilter]; rfl

theorem isUp_eq_false {c : Text} (h : isName c = true) : isUp c = false :=
  isUp_eq_false_of_isDir (isDir_of_isName h)

theorem canonComps_of_names (hnames : Names names)
    (hf : ∀ c ∈ f.splitOn '/', isName c = true) :
    canonComps (absPath names ++ '/' :: f) = names ++ f.splitOn '/' := by
  have hfilter : ((f.splitOn '/').filter fun c => c ≠ [] && c ≠ ['.']) = f.splitOn '/' := by
    refine List.filter_eq_self.mpr fun c hc => ?_
    have hname := hf c hc
    simp only [isName, isDir, Bool.and_eq_true, bne_iff_ne] at hname
    simp [hname.1.1, hname.2]
  rw [canonComps_below hnames, hfilter, List.dropWhile_eq_self_iff]
  intro hlength
  have hmem := List.getElem_mem hlength
  rw [isUp_eq_false]
  · exact Bool.false_ne_true
  · exact (List.mem_append.mp hmem).elim (fun h => (hnames _ h).1) (hf _)

/-- The components are those of the directory, and others that are no dots and not empty. -/
theorem of_mem_canonComps (hnames : Names names) {c : Text}
    (hc : c ∈ canonComps (absPath names ++ '/' :: f)) :
    '/' ∉ c ∧ c ≠ [] ∧ c ≠ ['.'] := by
  rw [canonComps_below hnames] at hc
  rcases List.mem_append.mp (List.dropWhile_subset _ hc) with hc | hc
  · obtain ⟨hname, hslash⟩ := hnames c hc
    simp only [isName, isDir, Bool.and_eq_true, bne_iff_ne] at hname
    exact ⟨hslash, hname.2, hname.1.1⟩
  · obtain ⟨hmem, hkeep⟩ := List.mem_filter.mp hc
    have hsplit := Splitting.notMem_of_mem_splitOn hmem
    simp only [Bool.and_eq_true, decide_eq_true_eq] at hkeep
    exact ⟨hsplit, hkeep⟩

theorem canonComps_ne_nil (hnames : Names names) (hne : names ≠ []) :
    canonComps (absPath names ++ '/' :: f) ≠ [] := by
  obtain ⟨c, names, rfl⟩ := List.exists_cons_of_ne_nil hne
  have hup : ¬ isUp c = true := by rw [isUp_eq_false (hnames c List.mem_cons_self).1]; simp
  rw [canonComps_below hnames, List.cons_append, List.dropWhile_cons_of_neg hup]
  exact List.cons_ne_nil _ _

theorem absPath_eq_root_iff (hnames : Names names) : absPath names = ['/'] ↔ names = [] := by
  rw [text_eq_iff, splitOn_absPath hnames.slash, slashParts]
  have hroot : ['/'].splitOn '/' = [[], []] := rfl
  rw [hroot]
  split
  next hnil => simp [hnil]
  next hne =>
    constructor
    · intro h
      have hnil : [] ∈ names := (List.cons.inj h).2 ▸ List.mem_cons_self
      exact absurd hnil (nil_notMem_of_names fun c hc => (hnames c hc).1)
    · exact fun h => absurd h hne

theorem absPath_singleton (f : Text) : absPath [f] = '/' :: f :=
  congrArg _ (List.intercalate_singleton)

theorem slashParts_of_ne_nil (h : comps ≠ []) : slashParts comps = comps := if_neg h

theorem mem_survivors {c : Text} (h : c ∈ survivors isName isUp comps) : c ∈ comps :=
  survivors_sublist.subset h

theorem splitOn_single (h : '/' ∉ f) : f.splitOn '/' = [f] := List.splitOn_eq_singleton h

namespace FileSystem

theorem delinkify_dir (hnames : Names names)
    (hdir : fs.isDir (absPath (canonComps (absPath names ++ '/' :: f))) = true)
    (hlinks : fs.LinkFree (absPath names ++ '/' :: f)) :
    fs.delinkify (absPath names ++ '/' :: f) = absPath names ++ '/' :: f ↔
      Canonical fs (absPath names) f := by
  have hdelinkify : fs.delinkify (absPath names ++ '/' :: f) =
      absPath (survivors isName isUp (canonComps (absPath names ++ '/' :: f))) := by
    rw [← hlinks.whole hdir]
    exact if_pos hdir
  have hslash : ∀ c ∈ survivors isName isUp (canonComps (absPath names ++ '/' :: f)), '/' ∉ c :=
    fun c hc => (of_mem_canonComps hnames (mem_survivors hc)).1
  rw [hdelinkify, text_eq_iff, splitOn_absPath hslash, List.splitOn_append_cons_self,
    splitOn_absPath hnames.slash, List.cons_append, List.cons_inj_right]
  constructor
  · intro h
    by_cases hnil : survivors isName isUp (canonComps (absPath names ++ '/' :: f)) = []
    · -- The root is one empty component, and the name has two or more.
      have hlength := congrArg List.length h
      have hpos := List.length_pos_of_ne_nil (List.splitOn_ne_nil '/' f)
      have hposNames : 0 < (slashParts names).length := by
        unfold slashParts
        split
        · simp
        · exact List.length_pos_of_ne_nil ‹_›
      rw [hnil, List.length_append] at hlength
      change 1 = _ at hlength
      omega
    · rw [slashParts_of_ne_nil hnil] at h
      have hall : ∀ c ∈ slashParts names ++ f.splitOn '/', isName c = true :=
        fun c hc => isName_of_mem_survivors (h ▸ hc)
      refine ⟨fun c hc => hall c (List.mem_append_right _ hc), fun hroot => ?_⟩
      rw [(absPath_eq_root_iff hnames).mp hroot] at hall
      exact absurd (List.mem_cons_self) (nil_notMem_of_names hall)
  · intro h
    rw [canonComps_of_names hnames h.names] at hdir ⊢
    by_cases hnil : names = []
    · obtain ⟨hfree, hfile⟩ := h.root ((absPath_eq_root_iff hnames).mpr hnil)
      rw [hnil, splitOn_single hfree] at hdir
      rw [List.nil_append, absPath_singleton, hfile] at hdir
      cases hdir
    · rw [survivors_of_names, slashParts_of_ne_nil hnil, slashParts_of_ne_nil (by simp [hnil])]
      intro c hc
      exact (List.mem_append.mp hc).elim (fun h => (hnames c h).1) (h.names c)

/-- The link-free form of what is no directory, compared component by component. -/
theorem delinkify_file_parts (hnames : Names names)
    (hdir : ¬ fs.isDir (absPath (canonComps (absPath names ++ '/' :: f))) = true)
    (hlinks : fs.LinkFree (absPath names ++ '/' :: f))
    (hcomps : canonComps (absPath names ++ '/' :: f) = comps) :
    fs.delinkify (absPath names ++ '/' :: f) = absPath names ++ '/' :: f ↔
      slashParts (survivors isName isUp comps.dropLast) ++ (comps.getLastD ['/']).splitOn '/' =
        slashParts names ++ f.splitOn '/' := by
  obtain ⟨-, ⟨hparent, hreal⟩, -⟩ := hlinks
  rw [hcomps] at hparent hreal hdir
  have hdelinkify : fs.delinkify (absPath names ++ '/' :: f) =
      absPath (survivors isName isUp comps.dropLast) ++ '/' :: comps.getLastD ['/'] := by
    have hcomps' : fs.rel2abs (absPath names ++ '/' :: f) = comps := hcomps
    rw [delinkify]
    simp only [hcomps', hdir, Bool.false_eq_true, if_false, hparent, if_true, hreal]
  have hslash : ∀ c ∈ survivors isName isUp comps.dropLast, '/' ∉ c := fun c hc =>
    (of_mem_canonComps hnames (hcomps ▸ List.dropLast_subset _ (mem_survivors hc))).1
  rw [hdelinkify, text_eq_iff, List.splitOn_append_cons_self, List.splitOn_append_cons_self,
    splitOn_absPath hslash, splitOn_absPath hnames.slash, List.cons_append, List.cons_append,
    List.cons_inj_right]

/-- The root directory has an empty name in front of its files. -/
theorem canonical_of_root (hnames : Names names) {last : Text} (hlast : isName last = true)
    (hslash : '/' ∉ last)
    (hdir : ¬ fs.isDir (absPath (canonComps (absPath names ++ '/' :: f))) = true)
    (h : slashParts [] ++ [last] = slashParts names ++ f.splitOn '/') :
    Canonical fs (absPath names) f := by
  by_cases hnil : names = []
  · rw [hnil] at h
    have hparts : f.splitOn '/' = [last] := (List.cons.inj h).2.symm
    have hf : f = last := text_eq_iff.mpr (hparts.trans (splitOn_single hslash).symm)
    have hall : ∀ c ∈ f.splitOn '/', isName c = true := by
      intro c hc
      rw [hparts] at hc
      exact List.mem_singleton.mp hc ▸ hlast
    refine ⟨hall, fun _ => ?_⟩
    rw [canonComps_of_names hnames hall, hparts, hnil, List.nil_append, ← hf,
      absPath_singleton] at hdir
    exact ⟨hf ▸ hslash, Bool.eq_false_iff.mpr hdir⟩
  · rw [slashParts_of_ne_nil hnil] at h
    obtain ⟨c, names, rfl⟩ := List.exists_cons_of_ne_nil hnil
    obtain ⟨rfl, -⟩ := List.cons.inj h
    cases (hnames [] List.mem_cons_self).1

theorem canonical_of_file_parts (hnames : Names names)
    (hdir : ¬ fs.isDir (absPath (canonComps (absPath names ++ '/' :: f))) = true)
    (hlinks : fs.LinkFree (absPath names ++ '/' :: f)) (hrel : f.head? ≠ some '/')
    (hcomps : canonComps (absPath names ++ '/' :: f) = comps)
    (h : slashParts (survivors isName isUp comps.dropLast) ++ (comps.getLastD ['/']).splitOn '/' =
      slashParts names ++ f.splitOn '/') : Canonical fs (absPath names) f := by
  obtain ⟨-, -, hup⟩ := hlinks
  rw [hcomps] at hup
  obtain rfl | ⟨front, last, rfl⟩ := List.eq_nil_or_concat' comps
  · -- The name of the root itself would begin with another slash.
    have hnil : names = [] := by
      by_contra hne
      exact canonComps_ne_nil hnames hne hcomps
    rw [hnil] at h
    have hf : f = ['/'] := text_eq_iff.mpr (List.cons.inj h).2.symm
    rw [hf] at hrel
    exact absurd rfl hrel
  · have hmem : last ∈ canonComps (absPath names ++ '/' :: f) := by simp [hcomps]
    obtain ⟨hslash, hnil, hdot⟩ := of_mem_canonComps hnames hmem
    have hlast : isName last = true := by
      have hlastUp : last ≠ ['.', '.'] := fun heq => hdir (hcomps ▸ hup (by simp [heq]))
      simp [isName, Awb.isDir, hnil, hdot, hlastUp]
    rw [List.getLastD_concat, splitOn_single hslash, List.dropLast_concat] at h
    by_cases hfront : survivors isName isUp front = []
    · rw [hfront] at h
      exact canonical_of_root hnames hlast hslash hdir h
    · rw [slashParts_of_ne_nil hfront] at h
      have hall : ∀ c ∈ slashParts names ++ f.splitOn '/', isName c = true := by
        intro c hc
        rw [← h] at hc
        rcases List.mem_append.mp hc with hc | hc
        · exact isName_of_mem_survivors hc
        · exact List.mem_singleton.mp hc ▸ hlast
      refine ⟨fun c hc => hall c (List.mem_append_right _ hc), fun hroot => ?_⟩
      rw [(absPath_eq_root_iff hnames).mp hroot] at hall
      exact absurd List.mem_cons_self (nil_notMem_of_names hall)

theorem file_parts_of_canonical (h : Canonical fs (absPath names) f) (hnames : Names names)
    (hcomps : canonComps (absPath names ++ '/' :: f) = comps) :
    slashParts (survivors isName isUp comps.dropLast) ++ (comps.getLastD ['/']).splitOn '/' =
      slashParts names ++ f.splitOn '/' := by
  obtain ⟨front, last, hparts⟩ :=
    (List.eq_nil_or_concat' (f.splitOn '/')).resolve_left (List.splitOn_ne_nil '/' f)
  have hall : ∀ c ∈ names ++ front, isName c = true := by
    intro c hc
    rcases List.mem_append.mp hc with hc | hc
    · exact (hnames c hc).1
    · exact h.names c (hparts ▸ List.mem_append_left _ hc)
  have hslash : '/' ∉ last :=
    Splitting.notMem_of_mem_splitOn (l := f) (hparts ▸ List.mem_append_right front (by simp))
  rw [← hcomps, canonComps_of_names hnames h.names, hparts, ← List.append_assoc,
    List.dropLast_concat, List.getLastD_concat, splitOn_single hslash, survivors_of_names hall,
    ← List.append_assoc]
  by_cases hnil : names = []
  · obtain ⟨hfree, -⟩ := h.root ((absPath_eq_root_iff hnames).mpr hnil)
    rw [splitOn_single hfree] at hparts
    have hfront : front = [] := by
      have hlength := congrArg List.length hparts
      rw [List.length_append, List.length_singleton, List.length_singleton] at hlength
      exact List.eq_nil_of_length_eq_zero (by omega)
    rw [hnil, hfront]
    rfl
  · rw [slashParts_of_ne_nil hnil, slashParts_of_ne_nil (by simp [hnil])]

theorem delinkify_file (hnames : Names names)
    (hdir : ¬ fs.isDir (absPath (canonComps (absPath names ++ '/' :: f))) = true)
    (hlinks : fs.LinkFree (absPath names ++ '/' :: f)) (hrel : f.head? ≠ some '/') :
    fs.delinkify (absPath names ++ '/' :: f) = absPath names ++ '/' :: f ↔
      Canonical fs (absPath names) f :=
  (delinkify_file_parts hnames hdir hlinks rfl).trans
    ⟨canonical_of_file_parts hnames hdir hlinks hrel rfl,
      fun h => file_parts_of_canonical h hnames rfl⟩

/-- A name below a directory that involves no links is its own link-free form if it is canonical. -/
theorem delinkify_eq_self_iff (hnames : Names names)
    (hlinks : fs.LinkFree (absPath names ++ '/' :: f)) (hrel : f.head? ≠ some '/') :
    fs.delinkify (absPath names ++ '/' :: f) = absPath names ++ '/' :: f ↔
      Canonical fs (absPath names) f := by
  by_cases hdir : fs.isDir (absPath (canonComps (absPath names ++ '/' :: f))) = true
  · exact delinkify_dir hnames hdir hlinks
  · exact delinkify_file hnames hdir hlinks hrel

end FileSystem

end Awb.SearchPath
