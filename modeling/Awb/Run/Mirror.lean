import Awb.Lib.Worklist
import Awb.SearchPath.Regex
import Awb.Util.MatchString

/-! The files of an experiment that are mirrored: the configuration files on its line, those they
refer to, and so on, and the files given with `-pb`. A file is known by its name. -/

namespace Awb.Run.Mirror

open SearchPath (Patterns)
open Worklist (Reference Event State)

/-! ### References of a file -/

/-- `dirname`, of a name that does not end with a slash. -/
def dirname (file : Text) : Text :=
  let dir := file.rdropWhile (· ≠ '/')
  if dir = [] then ['.']
  else if dir.all (· = '/') then ['/']
  else dir.rdropWhile (· = '/')

/-- `s/(^s+|#.*)//g` -/
def stripLine (line : Text) : Text := (line.dropWhile (· = 's')).takeWhile (· ≠ '#')

/-- `\/\S+` -/
def isAbsolute : Text → Bool
  | '/' :: _ :: _ => true
  | _ => false

/-- `-cfg\s+(\S+)`, the file at the first place where it matches and is one that is looked for. -/
def cfgMatch (isFile : Text → Bool) : Text → Option Text
  | [] => none
  | c :: cs =>
    let behind := (c :: cs).drop 4
    let file := (behind.dropWhile inSpaceClass).takeWhile (!inSpaceClass ·)
    if "-cfg".toList.isPrefixOf (c :: cs) && behind.head?.any inSpaceClass && isFile file then
      some file
    else cfgMatch isFile cs

/-- `s/^\$\(CDIR\)\///` -/
def withoutCdir (file : Text) : Text :=
  if "$(CDIR)/".toList.isPrefixOf file then file.drop 8 else file

/-- The configuration files: their lines, if they can be opened, and what the patterns and the paths
mean. -/
structure Configs where
  patterns : Patterns
  lines : Text → Option (List Text)
  realpath : Text → Text

namespace Configs
variable (c : Configs)

def resolve (file subfile : Text) : Text :=
  c.realpath (dirname file ++ '/' :: withoutCdir subfile)

/-- What the loop over the lines of a file finds in one. -/
def reference (file line : Text) : Option (Reference Text) :=
  match cfgMatch isAbsolute (stripLine line) with
  | some target => some ⟨true, target⟩
  | none => (cfgMatch (· ≠ []) (stripLine line)).map fun subfile => ⟨false, c.resolve file subfile⟩

/-! ### The files of an experiment -/

/-- `grep(/$file/, @files)` -/
def isListed (file : Text) (files : List Text) : Option Bool :=
  if files = [] then some false
  else (c.patterns.compile file).map fun hits => files.any hits

def followLines (file : Text) : List Text → List Text → Option (List Text)
  | [], files => some files
  | line :: lines, files =>
    match c.reference file line with
    | none => followLines file lines files
    | some r =>
      if r.always then followLines file lines (files ++ [r.target])
      else (c.isListed r.target files).bind fun listed =>
        followLines file lines (if listed then files else files ++ [r.target])

/-- The loop over the files from a place on, to which it adds those it finds. -/
def follow : ℕ → ℕ → List Text → Option (List Text)
  | 0, i, files => if i < files.length then none else some files
  | fuel + 1, i, files =>
    match files[i]? with
    | none => some files
    | some file => (c.lines file).bind fun lines =>
      (c.followLines file lines files).bind (follow fuel (i + 1))

def collectFile (fuel : ℕ) (file : Text) (files : List Text) : Option (List Text) :=
  (c.isListed file files).bind fun listed =>
    if listed then some files else c.follow fuel files.length (files ++ [file])

def hasText (part arg : Text) : Bool := arg.tails.any (part.isPrefixOf ·)

/-- The loop over the words of an experiment. -/
def collect (fuel : ℕ) : List Text → List Text → Option (List Text)
  | [], files => some files
  | [arg], files =>
    if hasText "-cfg".toList arg then c.collectFile fuel [] files
    else if hasText "-pb".toList arg then some (files ++ [[]])
    else some files
  | arg :: file :: args, files =>
    if hasText "-cfg".toList arg then (c.collectFile fuel file files).bind (collect fuel args)
    else if hasText "-pb".toList arg then collect fuel args (files ++ [file])
    else collect fuel (file :: args) files

/-! ### What should be listed -/

/-- The words of a file outside of comments. -/
def fileWords (lines : List Text) : List Text :=
  lines.flatMap fun line =>
    ((line.takeWhile (· ≠ '#')).splitOnP inSpaceClass).filter (· ≠ [])

/-- The words behind a `-cfg`. -/
def cfgWords : List Text → List Text
  | word :: file :: words =>
    if word = "-cfg".toList then file :: cfgWords words else cfgWords (file :: words)
  | _ => []

def references (file : Text) : List Text :=
  (cfgWords (fileWords ((c.lines file).getD []))).map fun subfile =>
    if subfile.head? = some '/' then subfile else c.resolve file subfile

end Configs

/-- The words of an experiment: a file with its option, or something else. -/
inductive Arg
  | cfg (file : Text)
  | pb (file : Text)
  | other (word : Text)

def Arg.words : Arg → List Text
  | cfg file => ["-cfg".toList, file]
  | pb file => ["-pb".toList, file]
  | other word => [word]

def argWords (args : List Arg) : List Text := args.flatMap Arg.words

def Arg.event : Arg → Option (Event Text)
  | cfg file => some (.root file)
  | pb file => some (.extra file)
  | other _ => none

def events (args : List Arg) : List (Event Text) := args.filterMap Arg.event

namespace Configs
variable (c : Configs)

/-- The files that can be reached from those on the line. -/
def Reachable (args : List Arg) (file : Text) : Prop :=
  ∃ root, .cfg root ∈ args ∧ Relation.ReflTransGen (fun a b => b ∈ c.references a) root file

/-- What the loop over the lines finds in a file. -/
def seen (file : Text) : List (Reference Text) :=
  ((c.lines file).getD []).filterMap (c.reference file)

/-- The files that can be reached by what the loops find. -/
def Found (args : List Arg) : Text → Prop := Worklist.Found c.seen (events args)

/-- Each file that can be reached is listed once, and those given with `-pb` as often as they are
given. -/
structure ListsReachable (args : List Arg) (files : List Text) : Prop where
  reachable : ∀ file, c.Reachable args file →
    files.count file = 1 + (Worklist.extras (events args)).count file
  others : ∀ file, ¬ c.Reachable args file →
    files.count file = (Worklist.extras (events args)).count file

/-- The options stand alone, and the name of a file, as a pattern, matches only itself. -/
structure Named (args : List Arg) : Prop where
  others : ∀ word, .other word ∈ args →
    hasText "-cfg".toList word = false ∧ hasText "-pb".toList word = false
  patterns : ∀ file, c.Found args file → ∃ hits, c.patterns.compile file = some hits ∧
    (∀ other, c.Found args other → (hits other = true ↔ other = file)) ∧
    ∀ other, .pb other ∈ args → hits other = false

end Configs

variable {c : Configs} {args : List Arg} {file : Text} {files lines queue : List Text}
  {evs : List (Event Text)} {s : State Text} {fuel first : ℕ} {l : List Text}

/-! ### The loops and the scan -/

theorem mem_events : .root file ∈ events args ↔ .cfg file ∈ args := by
  rw [events, List.mem_filterMap]
  constructor
  · rintro ⟨arg, harg, heq⟩
    cases arg with
    | cfg other =>
      obtain rfl := Event.root.inj (Option.some.inj heq)
      exact harg
    | pb other => cases heq
    | other word => cases heq
  · exact fun h => ⟨_, h, rfl⟩

theorem mem_events_extra : .extra file ∈ events args ↔ .pb file ∈ args := by
  rw [events, List.mem_filterMap]
  constructor
  · rintro ⟨arg, harg, heq⟩
    cases arg with
    | cfg other => cases heq
    | pb other =>
      obtain rfl := Event.extra.inj (Option.some.inj heq)
      exact harg
    | other word => cases heq
  · exact fun h => ⟨_, h, rfl⟩

/-- What is listed are files that are found and files given with `-pb`. -/
def Known (c : Configs) (args : List Arg) (files : List Text) : Prop :=
  ∀ file ∈ files, c.Found args file ∨ .pb file ∈ args

theorem Known.append (h : Known c args files) (hl : Known c args l) : Known c args (files ++ l) :=
  fun file hfile => (List.mem_append.mp hfile).elim (h file) (hl file)

theorem isListed_eq (hnamed : c.Named args) (hfile : c.Found args file)
    (hfiles : Known c args files) : c.isListed file files = some (decide (file ∈ files)) := by
  rw [Configs.isListed]
  split_ifs with hnil
  · rw [hnil]
    rfl
  · obtain ⟨hits, hcompile, hfound, hpb⟩ := hnamed.patterns file hfile
    have hself : hits file = true := (hfound file hfile).mpr rfl
    rw [hcompile, Option.map_some, Option.some.injEq, Bool.eq_iff_iff, decide_eq_true_iff,
      List.any_eq_true]
    constructor
    · rintro ⟨other, hother, hhits⟩
      rcases hfiles other hother with hother' | hother'
      · exact (hfound other hother').mp hhits ▸ hother
      · rw [hpb other hother'] at hhits
        cases hhits
    · exact fun hmem => ⟨file, hmem, hself⟩

theorem followLines_eq (hnamed : c.Named args) (hfiles : Known c args files)
    (hrefs : ∀ r ∈ lines.filterMap (c.reference file), c.Found args r.target) :
    c.followLines file lines files =
      some (files ++ Worklist.taken false files (lines.filterMap (c.reference file))) := by
  induction lines generalizing files with
  | nil => rw [Configs.followLines, List.filterMap_nil, Worklist.taken, List.append_nil]
  | cons line lines ih =>
    rw [Configs.followLines]
    cases hline : c.reference file line with
    | none =>
      rw [List.filterMap_cons_none hline] at hrefs ⊢
      exact ih hfiles hrefs
    | some r =>
      rw [List.filterMap_cons_some hline] at hrefs ⊢
      obtain ⟨hr, hrest⟩ := List.forall_mem_cons.mp hrefs
      have hmore : Known c args (files ++ [r.target]) :=
        hfiles.append fun other hother => Or.inl (List.mem_singleton.mp hother ▸ hr)
      dsimp only
      rw [Worklist.taken]
      by_cases halways : r.always = true
      · rw [if_pos halways, ih hmore hrest, if_pos (Or.inl ⟨halways, rfl⟩), List.append_assoc]
        rfl
      · rw [if_neg halways, isListed_eq hnamed hr hfiles, Option.bind_some]
        by_cases hlisted : r.target ∈ files
        · rw [if_pos (decide_eq_true hlisted), if_neg (by simp [halways, hlisted])]
          exact ih hfiles hrest
        · rw [if_neg (by simp [hlisted]), if_pos (Or.inr hlisted), ih hmore hrest,
            List.append_assoc]
          rfl

/-- The loop over the words, without those that are no options. -/
def collectEvents (c : Configs) (fuel : ℕ) : List (Event Text) → List Text → Option (List Text)
  | [], files => some files
  | .root file :: evs, files => (c.collectFile fuel file files).bind (collectEvents c fuel evs)
  | .extra file :: evs, files => collectEvents c fuel evs (files ++ [file])

theorem collect_argWords (h : ∀ word, .other word ∈ args →
    Configs.hasText "-cfg".toList word = false ∧ Configs.hasText "-pb".toList word = false) :
    c.collect fuel (argWords args) files = collectEvents c fuel (events args) files := by
  induction args generalizing files with
  | nil => rfl
  | cons arg args ih =>
    have hrest := fun files => @ih files fun word hword => h word (List.mem_cons_of_mem _ hword)
    cases arg with
    | cfg file =>
      have hcfg : Configs.hasText "-cfg".toList "-cfg".toList = true := by decide
      show c.collect fuel ("-cfg".toList :: file :: argWords args) files =
        collectEvents c fuel (.root file :: events args) files
      rw [Configs.collect, if_pos hcfg, collectEvents]
      exact congrArg _ (funext hrest)
    | pb file =>
      have hcfg : Configs.hasText "-cfg".toList "-pb".toList = false := by decide
      have hpb : Configs.hasText "-pb".toList "-pb".toList = true := by decide
      show c.collect fuel ("-pb".toList :: file :: argWords args) files =
        collectEvents c fuel (.extra file :: events args) files
      rw [Configs.collect, hcfg, if_neg (by decide), if_pos hpb, collectEvents]
      exact hrest _
    | other word =>
      obtain ⟨hcfg, hpb⟩ := h word List.mem_cons_self
      show c.collect fuel (word :: argWords args) files =
        collectEvents c fuel (events args) files
      rw [← hrest files]
      cases argWords args with
      | nil =>
        show (if Configs.hasText "-cfg".toList word then _ else
          if Configs.hasText "-pb".toList word then _ else some files) = some files
        rw [hcfg, hpb]
        rfl
      | cons next words =>
        rw [Configs.collect, hcfg, hpb]
        rfl

/-- What the loops do from a state of the scan on. -/
def runFrom (c : Configs) (first fuel : ℕ) (s : State Text) : Option (List Text) :=
  (c.follow first s.done.length s.listed).bind (collectEvents c fuel s.events)

/-- The states that the loops pass through. -/
structure Ok (c : Configs) (args : List Arg) (s : State Text) : Prop where
  within : Worklist.Within (c.Found args) c.seen s
  known : Known c args s.listed
  extras : ∀ file, .extra file ∈ s.events → .pb file ∈ args

theorem Ok.next {s' : State Text} (h : Ok c args s)
    (hstep : Worklist.step false c.seen s = some s') : Ok c args s' := by
  have hwithin := h.within.next hstep
  refine ⟨hwithin, ?_, ?_⟩
  · obtain ⟨done, a, queue, evs, rfl, rfl⟩ | ⟨done, a, evs, rfl, rfl⟩ |
      ⟨done, a, evs, rfl, rfl⟩ := Worklist.step_cases hstep
    · rw [Worklist.listed_scan]
      refine h.known.append fun file hfile => Or.inl ?_
      exact hwithin.queue file (List.mem_append_right _ hfile)
    · have hdone : Known c args done := fun file hfile =>
        h.known file (List.mem_append_left _ hfile)
      exact hdone.append fun file hfile => Or.inl (hwithin.queue file hfile)
    · have hdone : Known c args done := fun file hfile =>
        h.known file (List.mem_append_left _ hfile)
      rw [State.listed, List.append_nil]
      exact hdone.append fun file hfile =>
        Or.inr (h.extras file (List.mem_singleton.mp hfile ▸ List.mem_cons_self))
  · obtain ⟨done, a, queue, evs, rfl, rfl⟩ | ⟨done, a, evs, rfl, rfl⟩ |
      ⟨done, a, evs, rfl, rfl⟩ := Worklist.step_cases hstep
    · exact h.extras
    · exact fun file hfile => h.extras file (List.mem_cons_of_mem _ hfile)
    · exact fun file hfile => h.extras file (List.mem_cons_of_mem _ hfile)

theorem runFrom_nil (c : Configs) (first fuel : ℕ) (done : List Text) (evs : List (Event Text)) :
    runFrom c first fuel ⟨done, [], evs⟩ = collectEvents c fuel evs done := by
  have hfollow : c.follow first done.length (done ++ []) = some done := by
    rw [List.append_nil]
    cases first with
    | zero => rw [Configs.follow, if_neg (lt_irrefl _)]
    | succ first => rw [Configs.follow, List.getElem?_eq_none le_rfl]
  rw [runFrom, State.listed, hfollow, Option.bind_some]

theorem runFrom_root (hnamed : c.Named args) (h : Ok c args ⟨queue, [], .root file :: evs⟩) :
    runFrom c first fuel ⟨queue, [], .root file :: evs⟩ =
      runFrom c fuel fuel ⟨queue, if file ∈ queue then [] else [file], evs⟩ := by
  have hfile := h.within.roots file List.mem_cons_self
  have hknown : Known c args queue := fun other hother =>
    h.known other (List.mem_append_left _ hother)
  rw [runFrom_nil, collectEvents, Configs.collectFile, isListed_eq hnamed hfile hknown,
    Option.bind_some]
  by_cases hmem : file ∈ queue
  · rw [if_pos (decide_eq_true hmem), if_pos hmem, runFrom_nil, Option.bind_some]
  · rw [if_neg (by simp [hmem]), if_neg hmem]
    rfl

theorem runFrom_extra (c : Configs) (first fuel : ℕ) (done : List Text) (file : Text)
    (evs : List (Event Text)) : runFrom c first fuel ⟨done, [], .extra file :: evs⟩ =
      runFrom c first fuel ⟨done ++ [file], [], evs⟩ := by
  rw [runFrom_nil, runFrom_nil, collectEvents]

theorem runFrom_file {done : List Text} (hnamed : c.Named args)
    (h : Ok c args ⟨done, file :: queue, evs⟩) (hopen : (c.lines file).isSome) :
    runFrom c (first + 1) fuel ⟨done, file :: queue, evs⟩ =
      runFrom c first fuel ⟨done ++ [file],
        queue ++ Worklist.taken false (done ++ file :: queue) (c.seen file), evs⟩ := by
  obtain ⟨lines, hlines⟩ := Option.isSome_iff_exists.mp hopen
  have hseen : c.seen file = lines.filterMap (c.reference file) := by
    rw [Configs.seen, hlines, Option.getD_some]
  have hget : (done ++ file :: queue)[done.length]? = some file := by simp
  have hrefs : ∀ r ∈ lines.filterMap (c.reference file), c.Found args r.target := fun r hr =>
    h.within.closed file (h.within.queue file List.mem_cons_self) r (hseen ▸ hr)
  rw [runFrom, runFrom, State.listed, Worklist.listed_scan, Configs.follow, hget]
  dsimp only
  have hknown : Known c args (done ++ file :: queue) := h.known
  rw [hlines, Option.bind_some, followLines_eq hnamed hknown hrefs, Option.bind_some, hseen,
    List.length_append]
  rfl

theorem runFrom_closed {done : List Text} (hclosed : c.lines file = none) :
    runFrom c first fuel ⟨done, file :: queue, evs⟩ = none := by
  have hget : (done ++ file :: queue)[done.length]? = some file := by simp
  have hfollow : c.follow first done.length (done ++ file :: queue) = none := by
    cases first with
    | zero => rw [Configs.follow, if_pos (by simp)]
    | succ first =>
      rw [Configs.follow, hget]
      dsimp only
      rw [hclosed]
      rfl
  rw [runFrom, State.listed, hfollow]
  rfl

theorem runFrom_zero {done : List Text} : runFrom c 0 fuel ⟨done, file :: queue, evs⟩ = none := by
  rw [runFrom, State.listed, Configs.follow, if_pos (by simp)]
  rfl

/-- While there are files to be read, the loops go on as the scan does. -/
theorem ends_of_queue (hnamed : c.Named args)
    (hnil : ∀ done first, Ok c args ⟨done, [], evs⟩ →
      runFrom c first fuel ⟨done, [], evs⟩ = some l → Worklist.Ends false c.seen ⟨done, [], evs⟩ l)
    (done : List Text) (hok : Ok c args ⟨done, queue, evs⟩)
    (h : runFrom c first fuel ⟨done, queue, evs⟩ = some l) :
    Worklist.Ends false c.seen ⟨done, queue, evs⟩ l := by
  induction first generalizing done queue with
  | zero =>
    cases queue with
    | nil => exact hnil done 0 hok h
    | cons file queue => rw [runFrom_zero] at h; cases h
  | succ first ih =>
    cases queue with
    | nil => exact hnil done (first + 1) hok h
    | cons file queue =>
      cases hlines : c.lines file with
      | none => rw [runFrom_closed hlines] at h; cases h
      | some lines =>
        rw [runFrom_file hnamed hok (by rw [hlines]; rfl)] at h
        exact Worklist.Ends.next rfl (ih _ (hok.next rfl) h)

/-- If the loops come to their end, so does the scan. -/
theorem ends_of_runFrom (hnamed : c.Named args) (done : List Text)
    (hok : Ok c args ⟨done, queue, evs⟩) (h : runFrom c first fuel ⟨done, queue, evs⟩ = some l) :
    Worklist.Ends false c.seen ⟨done, queue, evs⟩ l := by
  induction evs generalizing done queue first with
  | nil =>
    refine ends_of_queue hnamed (fun done first _ h => ?_) done hok h
    rw [runFrom_nil] at h
    obtain rfl := Option.some.inj h
    have hends : Worklist.Ends false c.seen ⟨done, [], []⟩ (State.listed ⟨done, [], []⟩) :=
      Worklist.Ends.finished rfl
    rwa [State.listed, List.append_nil] at hends
  | cons event evs ih =>
    refine ends_of_queue hnamed (fun done first hok h => ?_) done hok h
    cases event with
    | root file =>
      rw [runFrom_root hnamed hok] at h
      exact Worklist.Ends.next rfl (ih _ (hok.next rfl) h)
    | extra file =>
      rw [runFrom_extra] at h
      exact Worklist.Ends.next rfl (ih _ (hok.next rfl) h)

/-- The loops come to the end of the scan if the files can be opened. -/
theorem exists_runFrom (hnamed : c.Named args) (hok : Ok c args s)
    (hopens : ∀ file, c.Found args file → (c.lines file).isSome)
    (h : Worklist.Ends false c.seen s l) :
    ∃ bound, ∀ first fuel, bound ≤ first → bound ≤ fuel → runFrom c first fuel s = some l := by
  induction h with
  | @finished s hnone =>
    obtain ⟨done, queue, evs⟩ := s
    obtain ⟨rfl, rfl⟩ := Worklist.eq_of_finished hnone
    refine ⟨0, fun first fuel _ _ => ?_⟩
    rw [runFrom_nil, State.listed, List.append_nil]
    rfl
  | next hstep _ ih =>
    obtain ⟨bound, hbound⟩ := ih (hok.next hstep)
    obtain ⟨done, file, queue, evs, rfl, rfl⟩ | ⟨done, file, evs, rfl, rfl⟩ |
      ⟨done, file, evs, rfl, rfl⟩ := Worklist.step_cases hstep
    · refine ⟨bound + 1, fun first fuel hfirst hfuel => ?_⟩
      obtain ⟨first, rfl⟩ := Nat.exists_eq_succ_of_ne_zero (Nat.ne_of_gt (Nat.lt_of_lt_of_le
        (Nat.succ_pos bound) hfirst))
      have hopen := hopens file (hok.within.queue file List.mem_cons_self)
      rw [runFrom_file hnamed hok hopen]
      exact hbound first fuel (Nat.le_of_succ_le_succ hfirst) (Nat.le_of_succ_le hfuel)
    · refine ⟨bound, fun first fuel _ hfuel => ?_⟩
      rw [runFrom_root hnamed hok]
      exact hbound fuel fuel hfuel hfuel
    · refine ⟨bound, fun first fuel hfirst hfuel => ?_⟩
      rw [runFrom_extra]
      exact hbound first fuel hfirst hfuel

/-! ### What is listed -/

theorem not_found_of_extra (hnamed : c.Named args) :
    ∀ file, .extra file ∈ events args → ¬ c.Found args file := by
  intro file hfile hfound
  obtain ⟨hits, -, hself, hpb⟩ := hnamed.patterns file hfound
  have hhits := (hself file hfound).mpr rfl
  rw [hpb file (mem_events_extra.mp hfile)] at hhits
  cases hhits

theorem ok_start (hnamed : c.Named args) : Ok c args ⟨[], [], events args⟩ where
  within := Worklist.within_found (not_found_of_extra hnamed)
  known := fun _ hfile => nomatch hfile
  extras := fun _ hfile => mem_events_extra.mp hfile

theorem collect_eq_runFrom (hnamed : c.Named args) (fuel : ℕ) :
    c.collect fuel (argWords args) [] = runFrom c fuel fuel ⟨[], [], events args⟩ := by
  rw [collect_argWords hnamed.others, runFrom_nil]

/-- A file with an absolute reference to itself. -/
def selfReference : Configs where
  patterns := SearchPath.dottedPatterns
  lines file := if file = "/a".toList then some ["-cfg /a".toList] else none
  realpath := id

theorem follow_selfReference (fuel i more : ℕ) :
    selfReference.follow fuel i (List.replicate (i + more + 1) "/a".toList) = none := by
  induction fuel generalizing i with
  | zero => rw [Configs.follow, if_pos (by rw [List.length_replicate]; omega)]
  | succ fuel ih =>
    have hget : (List.replicate (i + more + 1) "/a".toList)[i]? = some "/a".toList :=
      List.getElem?_replicate_of_lt (by omega)
    have hreference : selfReference.reference "/a".toList "-cfg /a".toList =
        some ⟨true, "/a".toList⟩ := by decide +kernel
    have hlines : selfReference.lines "/a".toList = some ["-cfg /a".toList] := rfl
    rw [Configs.follow, hget]
    dsimp only
    rw [hlines, Option.bind_some, Configs.followLines, hreference]
    dsimp only
    rw [if_pos rfl, Configs.followLines, Option.bind_some, ← List.replicate_succ',
      show i + more + 1 + 1 = i + 1 + more + 1 by omega]
    exact ih (i + 1)

/-- Two files that refer to each other. -/
def eachOther : Configs where
  patterns := SearchPath.dottedPatterns
  lines file :=
    if file = "/a".toList then some ["-x 1 -cfg b # -cfg z".toList]
    else if file = "/b".toList then some ["".toList, "-cfg $(CDIR)/a".toList]
    else none
  realpath path := if path = "//a".toList then "/a".toList else "/b".toList

end Awb.Run.Mirror
