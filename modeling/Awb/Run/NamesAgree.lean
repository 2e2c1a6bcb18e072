import Awb.Run.OneBenchmark

/-! Whether the summary, the flag files of a job and the job itself agree on its name. -/

namespace Awb.Run
open Subroutine

/-! ### The jobs of a run -/

section
variable {ρ α : Type} {h : Host} {P : Job → Prop}

/-- All jobs so far have a property. -/
def JobsHave (P : Job → Prop) (s : Session) : Prop := ∀ j ∈ s.jobs, P j

theorem keeps_ask (question : Text) :
    Keeps (JobsHave P) (ask h question : Subroutine Session ρ Bool) := fun _ hs => hs

theorem keeps_runCommand (command : Text) :
    Keeps (JobsHave P) (runCommand h command : Subroutine Session ρ Bool) :=
  keeps_bind (keeps_ask _) fun _ => keeps_pure _

theorem keeps_any {test : Text → Subroutine Session ρ Bool}
    (htest : ∀ text, Keeps (JobsHave P) (test text)) (texts : List Text) :
    Keeps (JobsHave P) (any test texts) := by
  induction texts with
  | nil => exact keeps_pure _
  | cons text texts ih =>
    exact keeps_bind (htest text) fun _ => keeps_ite (fun _ => keeps_pure _) fun _ => ih

theorem keeps_printError (lines : List Text) :
    Keeps (JobsHave P) (printError lines : Subroutine Session ρ Unit) := fun _ hs => hs

theorem keeps_countError : Keeps (JobsHave P) (countError : Subroutine Session ρ Unit) :=
  fun _ hs => hs

theorem keeps_leaveIf (condition : Bool) (result : ρ) :
    Keeps (JobsHave P) (leaveIf condition result) :=
  keeps_ite (fun _ => keeps_leave _) fun _ => keeps_pure _

theorem keeps_failIf (condition : Bool) (lines : List Text) (result : ρ) :
    Keeps (JobsHave P) (failIf condition lines result) :=
  keeps_ite (fun _ => keeps_bind (keeps_printError _) fun _ =>
    keeps_bind keeps_countError fun _ => keeps_leave _) fun _ => keeps_pure _

/-- After a check the rest of the function runs only if it did not fail. -/
theorem keeps_failIf_bind {condition : Bool} {lines : List Text} {result : ρ}
    {next : Unit → Subroutine Session ρ α}
    (hnext : condition = false → Keeps (JobsHave P) (next ())) :
    Keeps (JobsHave P) (failIf condition lines result >>= next) := by
  intro s hs
  cases condition with
  | false => exact hnext rfl s hs
  | true => exact hs

theorem keeps_reportIf (condition : Bool) (lines : List Text) :
    Keeps (JobsHave P) (reportIf condition lines) :=
  keeps_ite (fun _ => keeps_bind (keeps_printError _) fun _ => keeps_leave _) fun _ => keeps_pure _

variable {name model modelName base : Text}

theorem keeps_checkFlags : Keeps (JobsHave P) (checkFlags h name base) :=
  keeps_bind (keeps_ask _) fun _ => keeps_bind (keeps_leaveIf _ _) fun _ =>
    keeps_bind (keeps_ask _) fun _ => keeps_bind (keeps_leaveIf _ _) fun _ =>
      keeps_bind (keeps_any keeps_ask _) fun _ => keeps_ite
        (fun _ => keeps_bind (keeps_leaveIf _ _) fun _ =>
          keeps_bind (keeps_any keeps_runCommand _) fun _ => keeps_leaveIf _ _)
        fun _ => keeps_pure _

theorem keeps_setupTlistRun {trace rundir : Text} :
    Keeps (JobsHave P) (setupTlistRun h name modelName trace rundir) :=
  keeps_bind (keeps_ask _) fun _ => keeps_bind (keeps_reportIf _ _) fun _ =>
    keeps_bind (keeps_runCommand _) fun _ => keeps_bind (keeps_reportIf _ _) fun _ =>
      keeps_bind (keeps_runCommand _) fun _ => keeps_bind (keeps_reportIf _ _) fun _ =>
        keeps_bind (keeps_runCommand _) fun _ => keeps_bind (keeps_reportIf _ _) fun _ =>
          keeps_bind (keeps_runCommand _) fun _ => keeps_bind (keeps_reportIf _ _) fun _ =>
            keeps_pure _

theorem keeps_prepareRundir {setUp : Subroutine Session Unit Bool} {setUpError : List Text}
    (hsetUp : Keeps (JobsHave P) setUp) :
    Keeps (JobsHave P) (prepareRundir h name base setUp setUpError) :=
  keeps_bind (keeps_ask _) fun _ => keeps_ite
    (fun _ => keeps_bind (keeps_runCommand _) fun _ => keeps_pure _)
    fun _ => keeps_bind hsetUp fun _ => keeps_failIf _ _ _

/-- A submission adds one job, if any. -/
theorem keeps_submitJob {entry flag bmName : Text} {command : BatchCommand}
    (hjob : P ⟨entry, flag, bmName, command.benchmark⟩) :
    Keeps (JobsHave P) (submitJob h name entry flag bmName command) := by
  have hadd : ∀ s, JobsHave P s →
      JobsHave P { s with jobs := s.jobs ++ [⟨entry, flag, bmName, command.benchmark⟩] } := by
    intro s hs j hj
    rcases List.mem_append.mp hj with hj | hj
    · exact hs j hj
    · exact List.mem_singleton.mp hj ▸ hjob
  refine keeps_ite (fun _ => ?_) fun _ => ?_
  · exact keeps_bind (keeps_runCommand _) fun _ => keeps_ite
      (fun _ => keeps_bind (keeps_printError _) fun _ => keeps_pure _)
      fun _ => keeps_bind (keeps_modify hadd) fun _ => keeps_pure _
  · exact keeps_bind (keeps_runCommand _) fun _ => keeps_ite
      (fun _ => keeps_bind (keeps_printError _) fun _ => keeps_pure _) fun _ => keeps_pure _

theorem keeps_touchAndSubmit {entry submitName benchmark : Text}
    (hjob : P ⟨entry, base, submitName, benchmark⟩) :
    Keeps (JobsHave P) (touchAndSubmit h name model entry base submitName benchmark) :=
  keeps_bind (keeps_runCommand _) fun _ => keeps_bind (keeps_failIf _ _ _) fun _ =>
    keeps_bind (keeps_call (keeps_submitJob hjob)) fun _ => keeps_ite
      (fun _ => keeps_bind keeps_countError fun _ => keeps_leave _) fun _ => keeps_pure _

end

/-! ### The entries of a benchmarks file -/

/-- An entry, by its directory, the name before the extension and the digits of the region. -/
inductive Entry
  | cfg (dir name : Text)
  | region (dir name digits : Text)
  | tlist (dir name : Text)

namespace Entry

def bm : Entry → Text
  | cfg dir name => dir ++ (name ++ ".cfg".toList)
  | region dir name digits => dir ++ (name ++ (".cfg_r".toList ++ digits))
  | tlist dir name => dir ++ (name ++ ".tlist".toList)

def Valid : Entry → Prop
  | cfg dir name | tlist dir name => (dir = [] ∨ dir.getLast? = some '/') ∧ Plain name
  | region dir name digits => (dir = [] ∨ dir.getLast? = some '/') ∧ Plain name ∧
      digits ≠ [] ∧ ∀ d ∈ digits, d.isDigit

/-- When all names for a job are the same. -/
def NamesMatch (h : Host) (e : Entry) (entry : Text) : Prop :=
  match e with
  | cfg _ name => hasInnerCfg name = false ∨
      if isCfx e.bm then hasRegion e.bm = false else h.isFile (h.fullPath e.bm) = true
  | region _ name _ => h.isFile (h.fullPath e.bm) = false ∧
      h.isFile (h.fullPath (dropRegion e.bm)) = true ∧ hasInnerCfg name = false
  | tlist _ name => basename entry = name

end Entry

/-- One name for the summary, for both flag files and for the job itself. -/
def Job.NamesAgree (h : Host) (bm : Text) (j : Job) : Prop :=
  ∃ n ∈ h.summaryNames bm, j.flag = n ∧ j.log = n ∧ batchName j.benchmark = n

variable {h : Host} {name model modelName bm : Text}

/-- The name that `run_one_benchmark` gives to a benchmark. -/
def Host.baseName (h : Host) (bm : Text) : Text :=
  if isCfx bm && hasRegion bm ||
    !h.isFile (h.fullPath bm) && h.isFile (h.fullPath (dropRegion bm)) then
    dropAnyCfg (getBmName bm)
  else getBmName bm

/-- What the jobs for a benchmark with a configuration file are. -/
theorem jobs_runCfg {s : Session} (hs : s.jobs = []) :
    JobsHave (fun j => (h.isFile (h.fullPath bm) ∨ h.isFile (h.fullPath (dropRegion bm)) ∨
        isCfx bm) ∧ j = ⟨bm, h.baseName bm, h.baseName bm, bm⟩)
      ((runCfg h name model bm).start s) := by
  refine Keeps.apply ?_ fun j hj => absurd (hs ▸ hj) List.not_mem_nil
  refine keeps_ite (fun _ => keeps_bind keeps_countError fun _ => keeps_leave _) fun hfound => ?_
  refine keeps_bind keeps_checkFlags fun _ =>
    keeps_bind (keeps_prepareRundir (keeps_runCommand _)) fun _ => keeps_touchAndSubmit ⟨?_, rfl⟩
  revert hfound
  cases h.isFile (h.fullPath bm) <;> cases h.isFile (h.fullPath (dropRegion bm)) <;> simp

/-- What the jobs for the traces of a list are. -/
theorem jobs_runTlist {s : Session} (hs : s.jobs = []) :
    JobsHave (fun j => h.isFile (h.fullPath bm) ∧ ∃ trace ∈ h.traces (h.fullPath bm),
        j = ⟨trace, basename trace, getBmName bm, basename trace⟩)
      ((runTlist h name model modelName bm).start s) := by
  refine Keeps.apply ?_ fun j hj => absurd (hs ▸ hj) List.not_mem_nil
  refine keeps_failIf_bind fun hfile => keeps_forM fun trace htrace => ?_
  exact keeps_bind keeps_checkFlags fun _ => keeps_bind
    (keeps_prepareRundir (keeps_call keeps_setupTlistRun)) fun _ =>
      keeps_touchAndSubmit ⟨by simpa using hfile, trace, htrace, rfl⟩

/-! ### The names of an entry -/

theorem isTlist_append {s : Text} {c : Char} (hspace : c.isWhitespace = false) (ht : c ≠ 't') :
    isTlist (s ++ [c]) = false := by
  rw [isTlist, List.rdropWhile_concat_neg _ _ _ (by simp [hspace])]
  refine Bool.eq_false_iff.mpr fun hsuffix => ht ?_
  obtain ⟨front, hfront⟩ := List.isSuffixOf_iff_suffix.mp hsuffix
  have hlast := congrArg List.getLast? hfront
  simpa [List.getLast?_append] using hlast.symm

theorem isTlist_cfg (s : Text) : isTlist (s ++ ".cfg".toList) = false := by
  have hsplit : s ++ ".cfg".toList = (s ++ ".cf".toList) ++ ['g'] := by simp
  rw [hsplit]
  exact isTlist_append (by decide) (by decide)

theorem isTlist_digits {s digits : Text} (hne : digits ≠ []) (hall : ∀ d ∈ digits, d.isDigit) :
    isTlist (s ++ digits) = false := by
  obtain ⟨front, d, rfl⟩ := (List.eq_nil_or_concat digits).resolve_left hne
  have hd := hall d (by simp)
  rw [List.concat_eq_append, ← List.append_assoc]
  refine isTlist_append (Bool.eq_false_iff.mpr fun hspace => ?_) ?_
  · have hcases : ((d = ' ' ∨ d = '\t') ∨ d = '\r') ∨ d = '\n' := by
      simpa [Char.isWhitespace] using hspace
    rcases hcases with ((rfl | rfl) | rfl) | rfl <;> exact absurd hd (by decide)
  · rintro rfl
    exact absurd hd (by decide)

theorem isTlist_tlist (s : Text) : isTlist (s ++ ".tlist".toList) = true := by
  have hsplit : s ++ ".tlist".toList = (s ++ ".tlis".toList) ++ ['t'] := by simp
  rw [isTlist, hsplit, List.rdropWhile_concat_neg _ _ _ (by decide), ← hsplit]
  exact List.isSuffixOf_iff_suffix.mpr (List.suffix_append ..)

section
variable {dir digits : Text} (hdir : dir = [] ∨ dir.getLast? = some '/') (hname : Plain name)
include hdir hname

theorem basename_cfg : basename (dir ++ (name ++ ".cfg".toList)) = name ++ ".cfg".toList :=
  basename_of_slash hdir fun hmem => (List.mem_append.mp hmem).elim hname.slash (by decide)

theorem getBmName_cfg : getBmName (dir ++ (name ++ ".cfg".toList)) = name := by
  rw [getBmName, basename_cfg hdir hname]
  exact (dropExtension_plain hname.dot _).trans (if_pos (by decide))

theorem batchName_cfg : batchName (dir ++ (name ++ ".cfg".toList)) = name := by
  rw [batchName, basename_cfg hdir hname]
  simpa using dropCfg_plain hname.dot []

theorem basename_tlist : basename (dir ++ (name ++ ".tlist".toList)) = name ++ ".tlist".toList :=
  basename_of_slash hdir fun hmem => (List.mem_append.mp hmem).elim hname.slash (by decide)

theorem getBmName_tlist : getBmName (dir ++ (name ++ ".tlist".toList)) = name := by
  rw [getBmName, basename_tlist hdir hname]
  exact (dropExtension_plain hname.dot _).trans (if_pos (by decide))

variable (hdigits : ∀ d ∈ digits, d.isDigit)
include hdigits

theorem basename_region : basename (dir ++ (name ++ (".cfg_r".toList ++ digits))) =
    name ++ (".cfg_r".toList ++ digits) := by
  refine basename_of_slash hdir fun hmem => ?_
  rcases List.mem_append.mp hmem with hmem | hmem
  · exact hname.slash hmem
  · rcases List.mem_append.mp hmem with hmem | hmem
    · exact absurd hmem (by decide)
    · exact absurd (hdigits _ hmem) (by decide)

theorem getBmName_region : getBmName (dir ++ (name ++ (".cfg_r".toList ++ digits))) =
    name ++ (".cfg_r".toList ++ digits) := by
  have hdot : '.' ∉ "cfg_r".toList ++ digits := by
    refine fun hmem => (List.mem_append.mp hmem).elim (by decide) fun hmem => ?_
    exact absurd (hdigits _ hmem) (by decide)
  have hext : isExtension ("cfg_r".toList ++ digits) = false := by
    have hunderscore : '_' ∈ ("cfg_r".toList ++ digits).rdropWhile Char.isWhitespace := by
      have hmem : '_' ∈ "cfg_r".toList ++ digits := List.mem_append_left _ (by decide)
      rw [← List.rdropWhile_append_rtakeWhile (p := Char.isWhitespace)
        (l := "cfg_r".toList ++ digits)] at hmem
      refine (List.mem_append.mp hmem).resolve_right fun hspace => ?_
      exact absurd (List.mem_rtakeWhile_imp hspace) (by decide)
    refine Bool.eq_false_iff.mpr fun h => ?_
    exact absurd (List.all_eq_true.mp (Bool.and_eq_true_iff.mp h).2 _ hunderscore) (by decide)
  rw [getBmName, basename_region hdir hname hdigits]
  refine (dropExtension_plain hname.dot ("cfg_r".toList ++ digits)).trans ?_
  rw [hext, if_neg Bool.false_ne_true, dropExtension_of_not_mem hdot]
  rfl

theorem batchName_region : batchName (dir ++ (name ++ (".cfg_r".toList ++ digits))) =
    name ++ ("_r".toList ++ digits) := by
  rw [batchName, basename_region hdir hname hdigits]
  simpa using dropCfg_plain hname.dot ("_r".toList ++ digits)

end

/-! ### Where the names agree -/

theorem namesAgree_same_iff {base : Text} :
    (⟨bm, base, base, bm⟩ : Job).NamesAgree h bm ↔
      base ∈ h.summaryNames bm ∧ batchName bm = base := by
  constructor
  · rintro ⟨n, hn, rfl, -, hbatch⟩
    exact ⟨hn, hbatch⟩
  · exact fun hboth => ⟨base, hboth.1, rfl, rfl, hboth.2⟩

/-- The name in the summary of a benchmark that is found. -/
theorem summaryNames_cfg (hlist : isTlist bm = false)
    (hfound : h.isFile (h.fullPath bm) ∨ h.isFile (h.fullPath (dropRegion bm)) ∨ isCfx bm) :
    h.summaryNames bm =
      if !h.isFile (h.fullPath bm) && h.isFile (h.fullPath (dropRegion bm)) then
        [dropAnyCfg (getBmName bm)]
      else [getBmName bm] := by
  have hnot : (!h.isFile (h.fullPath bm) && !h.isFile (h.fullPath (dropRegion bm)) &&
      !isCfx bm) = false := by
    rcases hfound with hfound | hfound | hfound <;> simp [hfound]
  simp only [Host.summaryNames, hlist, hnot, Bool.false_eq_true, if_false]

/-- A benchmark with a configuration file of its own. -/
theorem agree_cfg_iff {dir : Text} (hvalid : (Entry.cfg dir name).Valid)
    (hfound : h.isFile (h.fullPath (Entry.cfg dir name).bm) ∨
      h.isFile (h.fullPath (dropRegion (Entry.cfg dir name).bm)) ∨ isCfx (Entry.cfg dir name).bm) :
    h.baseName (Entry.cfg dir name).bm ∈ h.summaryNames (Entry.cfg dir name).bm ∧
        batchName (Entry.cfg dir name).bm = h.baseName (Entry.cfg dir name).bm ↔
      (Entry.cfg dir name).NamesMatch h (Entry.cfg dir name).bm := by
  obtain ⟨hdir, hname⟩ := hvalid
  have hsplit : (Entry.cfg dir name).bm = (dir ++ name) ++ ".cfg".toList :=
    (List.append_assoc ..).symm
  have hlist : isTlist (Entry.cfg dir name).bm = false := by
    rw [hsplit]
    exact isTlist_cfg _
  have hbm : getBmName (Entry.cfg dir name).bm = name := getBmName_cfg hdir hname
  have hbatch : batchName (Entry.cfg dir name).bm = name := batchName_cfg hdir hname
  rw [summaryNames_cfg hlist hfound, Host.baseName, Entry.NamesMatch, hbm, hbatch,
    ← dropAnyCfg_eq_self_iff]
  generalize (Entry.cfg dir name).bm = bm at hfound
  by_cases hdrop : dropAnyCfg name = name
  · simp [hdrop]
  have hdrop' : name ≠ dropAnyCfg name := Ne.symm hdrop
  rw [or_iff_right hdrop]
  cases hregion : hasRegion bm with
  | false =>
    -- without a region both tests are for the same file
    rw [dropRegion_of_not hregion] at hfound ⊢
    cases hcfx : isCfx bm with
    | true => simp
    | false =>
      rw [hcfx] at hfound
      simpa using hfound
  | true =>
    cases hcfx : isCfx bm with
    | true => simp [hdrop']
    | false =>
      rw [hcfx] at hfound
      cases hfile : h.isFile (h.fullPath bm) with
      | true => simp
      | false =>
        have hregionFile : h.isFile (h.fullPath (dropRegion bm)) = true := by
          simpa [hfile] using hfound
        simp [hregionFile, hdrop']

/-- A region of a benchmark. -/
theorem agree_region_iff {dir digits : Text} (hvalid : (Entry.region dir name digits).Valid)
    (hfound : h.isFile (h.fullPath (Entry.region dir name digits).bm) ∨
      h.isFile (h.fullPath (dropRegion (Entry.region dir name digits).bm)) ∨
      isCfx (Entry.region dir name digits).bm) :
    h.baseName (Entry.region dir name digits).bm ∈
        h.summaryNames (Entry.region dir name digits).bm ∧
        batchName (Entry.region dir name digits).bm =
          h.baseName (Entry.region dir name digits).bm ↔
      (Entry.region dir name digits).NamesMatch h (Entry.region dir name digits).bm := by
  obtain ⟨hdir, hname, hne, hdigits⟩ := hvalid
  have hsplit : (Entry.region dir name digits).bm = (dir ++ name ++ ".cfg_r".toList) ++ digits := by
    simp [Entry.bm]
  have hlist : isTlist (Entry.region dir name digits).bm = false := by
    rw [hsplit]
    exact isTlist_digits hne hdigits
  have hbm : getBmName (Entry.region dir name digits).bm =
      name ++ (".cfg_r".toList ++ digits) := getBmName_region hdir hname hdigits
  have hbatch : batchName (Entry.region dir name digits).bm = name ++ ("_r".toList ++ digits) :=
    batchName_region hdir hname hdigits
  have hdrop : dropAnyCfg (name ++ (".cfg_r".toList ++ digits)) =
      if hasInnerCfg name then dropAnyCfg name ++ ".cfg".toList ++ ("_r".toList ++ digits)
      else name ++ ("_r".toList ++ digits) := by
    rw [← dropAnyCfg_cfg hname.dot]
    simp
  -- the name of the job has no dot, the others have one unless it was removed
  have hdot : '.' ∉ name ++ ("_r".toList ++ digits) := by
    simp only [List.mem_append, not_or]
    exact ⟨hname.dot, by decide, fun hmem => absurd (hdigits _ hmem) (by decide)⟩
  have hkept : name ++ ("_r".toList ++ digits) ≠ name ++ (".cfg_r".toList ++ digits) := by
    intro heq
    rw [heq] at hdot
    simp at hdot
  have hinner : name ++ ("_r".toList ++ digits) = dropAnyCfg (name ++ (".cfg_r".toList ++ digits)) ↔
      hasInnerCfg name = false := by
    rw [hdrop]
    cases hasInnerCfg name with
    | false => simp
    | true =>
      refine iff_of_false (fun heq => ?_) (by decide)
      rw [if_pos rfl] at heq
      rw [heq] at hdot
      simp at hdot
  have hregion : hasRegion (Entry.region dir name digits).bm = true := by
    rw [Entry.bm, ← List.append_assoc]
    exact hasRegion_append (hasRegion_cfg hdigits hne)
  rw [summaryNames_cfg hlist hfound, Host.baseName, Entry.NamesMatch, hbm, hbatch, hregion,
    Bool.and_true]
  generalize (Entry.region dir name digits).bm = bm at hfound
  have hneither : ∀ base, ¬ (base ∈ [name ++ (".cfg_r".toList ++ digits)] ∧
      name ++ ("_r".toList ++ digits) = base) :=
    fun base hboth => hkept (hboth.2.trans (List.mem_singleton.mp hboth.1))
  cases hfile : h.isFile (h.fullPath bm) with
  | true => exact iff_of_false (hneither _) (by simp)
  | false =>
    cases hregionFile : h.isFile (h.fullPath (dropRegion bm)) with
    | true => simpa using hinner
    | false => exact iff_of_false (hneither _) (by simp)

/-- A trace of a list. -/
theorem agree_tlist_iff {dir trace : Text} (hvalid : (Entry.tlist dir name).Valid)
    (hfile : h.isFile (h.fullPath (Entry.tlist dir name).bm))
    (htrace : trace ∈ h.traces (h.fullPath (Entry.tlist dir name).bm)) :
    (⟨trace, basename trace, getBmName (Entry.tlist dir name).bm, basename trace⟩ : Job).NamesAgree
      h (Entry.tlist dir name).bm ↔ basename trace = name := by
  obtain ⟨hdir, hname⟩ := hvalid
  have hbm : getBmName (Entry.tlist dir name).bm = name := getBmName_tlist hdir hname
  have hlist : isTlist (Entry.tlist dir name).bm = true := by
    rw [Entry.bm, ← List.append_assoc]
    exact isTlist_tlist _
  have hsummary : h.summaryNames (Entry.tlist dir name).bm =
      (h.traces (h.fullPath (Entry.tlist dir name).bm)).map basename := by
    simp only [Host.summaryNames, hlist, hfile, if_true]
  rw [Job.NamesAgree, hsummary, hbm]
  constructor
  · rintro ⟨n, -, hflag, hlog, -⟩
    exact hflag.trans hlog.symm
  · intro heq
    have hself : basename name = name := by
      simpa using basename_of_slash (.inl rfl : ([] : Text) = [] ∨ _) hname.slash
    refine ⟨name, List.mem_map.mpr ⟨trace, htrace, heq⟩, heq, rfl, ?_⟩
    rw [heq, batchName, hself]
    exact dropCfg_of_not_mem hname.dot

/-- The names for a job agree exactly if the entry is one for which all substitutions do. -/
theorem namesAgree_iff {e : Entry} (he : e.Valid) {s : Session} (hs : s.jobs = []) :
    ∀ j ∈ ((runOneBenchmark h name model modelName e.bm).start s).jobs,
      j.NamesAgree h e.bm ↔ e.NamesMatch h j.entry := by
  intro j hj
  cases e with
  | cfg dir bmName =>
    have hlist : isTlist (Entry.cfg dir bmName).bm = false := by
      rw [Entry.bm, ← List.append_assoc]
      exact isTlist_cfg _
    rw [runOneBenchmark, hlist, if_neg Bool.false_ne_true] at hj
    obtain ⟨hfound, rfl⟩ := jobs_runCfg hs j hj
    exact namesAgree_same_iff.trans (agree_cfg_iff he hfound)
  | region dir bmName digits =>
    have hlist : isTlist (Entry.region dir bmName digits).bm = false := by
      rw [Entry.bm, ← List.append_assoc, ← List.append_assoc]
      exact isTlist_digits he.2.2.1 he.2.2.2
    rw [runOneBenchmark, hlist, if_neg Bool.false_ne_true] at hj
    obtain ⟨hfound, rfl⟩ := jobs_runCfg hs j hj
    exact namesAgree_same_iff.trans (agree_region_iff he hfound)
  | tlist dir bmName =>
    have hlist : isTlist (Entry.tlist dir bmName).bm = true := by
      rw [Entry.bm, ← List.append_assoc]
      exact isTlist_tlist _
    rw [runOneBenchmark, hlist, if_pos rfl] at hj
    obtain ⟨hfile, trace, htrace, rfl⟩ := jobs_runTlist hs j hj
    exact agree_tlist_iff he hfile htrace

/-- No flag file is there yet, and all commands succeed. -/
def freshHost : Host where
  resdir := "/r"
  replace := false
  runbatch := true
  compress := "gzip"
  batchScrInputs := ""
  execscript := "./run"
  params _ := ""
  fullPath := id
  isFile f := f = "a.cfg".toList || f = "all.tlist".toList
  lines _ := ["go.gz"]
  answer n _ := Nat.ble 5 n

def freshSession : Session := ⟨0, 0, [], [], []⟩

/-- The job of a benchmark that has a configuration file. -/
theorem namesAgree_cfg : ∃ j, ((runOneBenchmark freshHost "exp" "m.apm" "m"
      (Entry.cfg [] "a").bm).start freshSession).jobs = [j] ∧
      j.NamesAgree freshHost (Entry.cfg [] "a").bm := by
  have hvalid : (Entry.cfg [] "a".toList).Valid := ⟨.inl rfl, by decide⟩
  have hjobs : ∃ j, ((runOneBenchmark freshHost "exp" "m.apm" "m"
      (Entry.cfg [] "a").bm).start freshSession).jobs = [j] := ⟨_, rfl⟩
  obtain ⟨j, hj⟩ := hjobs
  have hmem : j ∈ ((runOneBenchmark freshHost "exp" "m.apm" "m"
      (Entry.cfg [] "a").bm).start freshSession).jobs := hj ▸ List.mem_singleton_self j
  exact ⟨j, hj, (namesAgree_iff hvalid rfl j hmem).mpr (.inl rfl)⟩

/-- The submission of a trace writes to the `SUBMITTED` file of its list. -/
theorem not_namesAgree : ¬ ∀ (h : Host) (e : Entry) (name model modelName : Text) (s : Session),
    e.Valid → s.jobs = [] →
      ∀ j ∈ ((runOneBenchmark h name model modelName e.bm).start s).jobs, j.NamesAgree h e.bm := by
  intro hall
  have hvalid : (Entry.tlist [] "all".toList).Valid := ⟨.inl rfl, by decide⟩
  have hjob : (⟨"go.gz", "go.gz", "all", "go.gz"⟩ : Job) ∈
      ((runOneBenchmark freshHost "exp" "m.apm" "m"
        (Entry.tlist [] "all").bm).start freshSession).jobs := List.mem_singleton.mpr rfl
  obtain ⟨n, -, hflag, hlog, -⟩ := hall _ _ _ _ _ _ hvalid rfl _ hjob
  exact absurd (hflag.trans hlog.symm) (by decide)

end Awb.Run
