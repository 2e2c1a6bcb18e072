import Awb.Lib.Splitting
import Awb.Run.OneBenchmark
import Awb.Util.MatchString

/-! `regression.verifier` and the summary that it reads, to which each invocation of `awb-run` adds
its experiments. -/

namespace Awb.Regression.Verifier

open Run (bmEntry badBmEntry)

/-! ### The summary -/

structure Experiment where
  name : Text
  model : Text
  bms : List Text

/-- An invocation of `awb-run`. The names of experiments are words, and there are no line breaks in
what is read from a file line by line. -/
structure Invocation where
  host : Run.Host
  argv : List Text
  exps : List Experiment
  name_ne : ∀ e ∈ exps, e.name ≠ []
  name_word : ∀ e ∈ exps, ∀ c ∈ e.name, inSpaceClass c = false
  bms_lines : ∀ e ∈ exps, ∀ bm ∈ e.bms, '\n' ∉ bm
  host_lines : ∀ file, ∀ line ∈ host.lines file, '\n' ∉ line

def summaryFileHeader : Text := "# awb-run 1.0".toList

def generatedBy : Text := "# Generated by command : awb-run".toList

def Invocation.generateRunSummary (inv : Invocation) : Text :=
  '\n' :: generatedBy ++ ' ' :: [' '].intercalate inv.argv ++ [' ', '\n'] ++
    inv.exps.flatMap fun e => inv.host.generateRunSummary e.name e.model e.bms

/-- The first invocation writes the header. -/
def summaryFile (invs : List Invocation) : Text :=
  summaryFileHeader ++ '\n' :: invs.flatMap Invocation.generateRunSummary

/-- `/# awb-run 1.0/` -/
def isHeader (line : Text) : Bool :=
  line.tails.any fun rest =>
    "# awb-run 1".toList.isPrefixOf rest && (rest.drop 12).head? = some '0'

/-- `/^\s*\#/ | /^\s*$/` -/
def isSkipped (line : Text) : Bool :=
  match line.dropWhile inSpaceClass with
  | [] => true
  | c :: _ => c = '#'

def readSummary (text : Text) : Option (List Text) :=
  match getLines text with
  | [] => none
  | header :: summary =>
    if isHeader header then some (summary.filter fun line => !isSkipped line) else none

/-! ### The files of an experiment -/

/-- `basename` of a path that may end with slashes. -/
def basename (path : Text) : Text :=
  let stripped := path.take 1 ++ (path.drop 1).rdropWhile (· = '/')
  let base := stripped.rtakeWhile (· ≠ '/')
  if base ≠ [] then base else if stripped ≠ [] then stripped else "./".toList

/-- `s/\.[a-z][a-z]*//s` -/
def dropFirstExtension : Text → Text
  | [] => []
  | c :: cs =>
    if c = '.' && cs.head?.any Char.isLower then cs.dropWhile Char.isLower
    else c :: dropFirstExtension cs

def getModelName (model : Text) : Text := dropFirstExtension (basename model)

/-- What there is in the results directory. -/
structure Results where
  resdir : Text
  isDir : Text → Bool
  isFile : Text → Bool

inductive Status
  | passed
  | failed
  | running
deriving DecidableEq

/-- The pass rate that is printed. -/
inductive Rate
  | unknown
  | noBenchmarks
  | of (passed total : ℕ)
deriving DecidableEq

structure Tally where
  exptotal : ℕ
  expfail : ℕ
  exprunning : ℕ

def Tally.rate (t : Tally) : Rate :=
  if t.exptotal ≠ 0 then .of (t.exptotal - (t.expfail + t.exprunning)) t.exptotal
  else .noBenchmarks

def Tally.count (t : Tally) : Status → Tally
  | .passed => ⟨t.exptotal + 1, t.expfail, t.exprunning⟩
  | .failed => ⟨t.exptotal + 1, t.expfail + 1, t.exprunning⟩
  | .running => ⟨t.exptotal + 1, t.expfail, t.exprunning + 1⟩

namespace Results
variable (r : Results)

def dir (exp : Text) : Text := r.resdir ++ '/' :: exp

def hasFile (exp base : Text) (ext : String) : Bool :=
  r.isFile (r.dir exp ++ '/' :: base ++ ext.toList)

def buildError (exp apmfile : Text) : Bool := r.hasFile exp (getModelName apmfile) ".ERROR"

def hasStats (exp bm : Text) : Bool :=
  r.hasFile exp bm ".stats" || r.hasFile exp bm ".stats.gz" || r.hasFile exp bm ".stats.bz2"

def check (exp bm : Text) : Status :=
  if bm = badBmEntry then .failed
  else if r.hasStats exp bm then .passed
  else if r.hasFile exp bm ".ERROR" then .failed
  else if r.hasFile exp bm ".SUBMITTED" then .running
  else if r.hasFile exp bm ".RUNNING" then .running
  else .failed

end Results

/-! ### The loops -/

/-- `s/^.. //`, where a dot is any character of a line. -/
def stripEntry : Text → Option Text
  | _ :: _ :: ' ' :: bm => some bm
  | _ => none

/-- `my ($exp, $apmfile) = split(/\s+/, ...)` -/
def splitLine (line : Text) : Text × Option Text :=
  let behind := line.dropWhile (!inSpaceClass ·)
  (line.takeWhile (!inSpaceClass ·),
    if behind = [] then none
    else some ((behind.dropWhile inSpaceClass).takeWhile (!inSpaceClass ·)))

/-- The loop over the entries from a line on, with `left` lines up to the end of the summary. -/
def entryLoop (body : Tally → Text → Tally) : ℕ → List Text → ℕ → Tally → List Text × ℕ × Tally
  | 0, summary, ibm, t => (summary, ibm, t)
  | left + 1, summary, ibm, t =>
    match summary[ibm]?.bind stripEntry with
    | some bm => entryLoop body left (summary.set ibm bm) (ibm + 1) (body t bm)
    | none => (summary, ibm, t)

structure State where
  summary : List Text
  iexp : ℕ
  fail : Bool
  running : Bool
  buildfound : Bool
  printed : List (Text × Rate)
deriving DecidableEq

namespace Results
variable (r : Results)

/-- The body of the loop over the experiments. `basename` dies of a name that is not defined. -/
def verifyExp (st : State) (line : Text) : Option State :=
  match splitLine line with
  | (_, none) => none
  | (exp, some apmfile) =>
    let first := st.iexp + 1
    let left := st.summary.length - first
    if r.isDir (r.dir exp) then
      let buildfound := st.buildfound || r.isDir (r.dir exp ++ "/BUILD".toList)
      if r.buildError exp apmfile then
        let (summary, ibm, _) := entryLoop (fun t _ => t) left st.summary first ⟨0, 0, 0⟩
        some ⟨summary, ibm - 1, true, st.running, buildfound, st.printed ++ [(exp, .unknown)]⟩
      else
        let (summary, ibm, t) :=
          entryLoop (fun t bm => t.count (r.check exp bm)) left st.summary first ⟨0, 0, 0⟩
        some ⟨summary, ibm - 1, st.fail || t.expfail ≠ 0, st.running || t.exprunning ≠ 0,
          buildfound, st.printed ++ [(exp, t.rate)]⟩
    else some { st with fail := true, printed := st.printed ++ [(exp, .unknown)] }

def verifyLoop : ℕ → State → Option State
  | 0, st => if st.iexp < st.summary.length then none else some st
  | fuel + 1, st =>
    match st.summary[st.iexp]? with
    | none => some st
    | some line => (r.verifyExp st line).bind fun st =>
      verifyLoop fuel { st with iexp := st.iexp + 1 }

end Results

def State.exitCode (st : State) : ℕ :=
  if st.fail then 1 else if st.running then 2 else 0

/-- The exit code and the rates that are printed. -/
def Results.verifier (r : Results) (fuel : ℕ) (text : Text) : Option (ℕ × List (Text × Rate)) :=
  match readSummary text with
  | none => some (1, [])
  | some summary => (r.verifyLoop fuel ⟨summary, 0, false, false, false, []⟩).map
      fun st => (st.exitCode, st.printed)

/-! ### What it should say -/

/-- An experiment that `awb-run` has listed, with the path of its model and the names of its
benchmarks. -/
structure Listed where
  name : Text
  model : Text
  entries : List Text

def Invocation.listed (inv : Invocation) : List Listed :=
  inv.exps.map fun e =>
    ⟨e.name, inv.host.fullPath e.model, e.bms.flatMap inv.host.summaryNames⟩

namespace Listed
variable (r : Results) (e : Listed)

def IsBuilt : Prop := r.isDir (r.dir e.name) = true ∧ r.buildError e.name e.model = false

instance : Decidable (e.IsBuilt r) := by unfold IsBuilt; infer_instance

def Passed : Prop :=
  e.IsBuilt r ∧ ∀ bm ∈ e.entries, bm ≠ badBmEntry ∧ r.hasStats e.name bm = true

def Unfailed : Prop :=
  e.IsBuilt r ∧ ∀ bm ∈ e.entries, bm ≠ badBmEntry ∧ (r.hasStats e.name bm = true ∨
    r.hasFile e.name bm ".ERROR" = false ∧
      (r.hasFile e.name bm ".SUBMITTED" = true ∨ r.hasFile e.name bm ".RUNNING" = true))

/-- Its own benchmarks, and those of them that are known and have a stats file. -/
def rate : Rate :=
  if e.entries = [] then .noBenchmarks
  else .of (e.entries.countP fun bm => bm ≠ badBmEntry && r.hasStats e.name bm) e.entries.length

end Listed

/-- The exit code, and the rates among those that are printed. -/
structure Verifies (r : Results) (listed : List Listed) (code : ℕ)
    (printed : List (Text × Rate)) : Prop where
  passed : code = 0 ↔ ∀ e ∈ listed, e.Passed r
  running : code = 2 ↔ (∀ e ∈ listed, e.Unfailed r) ∧
    ∃ e ∈ listed, ∃ bm ∈ e.entries, r.hasStats e.name bm = false
  code : code = 0 ∨ code = 1 ∨ code = 2
  rates : ∃ blocks : List (List (Text × Rate)), printed = blocks.flatten ∧
    List.Forall₂ (fun e block => e.IsBuilt r → block = [(e.name, e.rate r)]) listed blocks

/-- The verifier comes to its end with the right exit code and the right rates. -/
def Verified (r : Results) (invs : List Invocation) : Prop :=
  ∃ code printed, Verifies r (invs.flatMap Invocation.listed) code printed ∧
    ∃ bound, ∀ fuel, bound ≤ fuel → r.verifier fuel (summaryFile invs) = some (code, printed)

/-- The summary can be read as it is meant: no name is taken for a comment, and no path or command
line for something else. -/
structure Invocation.Readable (inv : Invocation) : Prop where
  argv : ∀ arg ∈ inv.argv, '\n' ∉ arg
  name : ∀ e ∈ inv.exps, e.name.head? ≠ some '#'
  model : ∀ e ∈ inv.exps, ∀ c ∈ inv.host.fullPath e.model, inSpaceClass c = false

/-- The lines of an experiment in the summary. -/
def Listed.lines (e : Listed) : List Text :=
  (e.name ++ '\t' :: e.model) :: e.entries.map (bmEntry ++ ·)

variable {r : Results} {inv : Invocation} {invs : List Invocation} {e : Listed}
  {listed : List Listed}
  {name s : Text} {names front rest : List Text} {st : State}

/-! ### Reading the summary -/

theorem mem_of_mem_dropExtension {c : Char} (h : c ∈ Run.dropExtension s) : c ∈ s := by
  induction s with
  | nil => exact h
  | cons d s ih =>
    rw [Run.dropExtension] at h
    split at h
    next => cases h
    next => exact List.mem_cons.mpr ((List.mem_cons.mp h).imp_right ih)

theorem mem_of_mem_dropAnyCfg {c : Char} (h : c ∈ Run.dropAnyCfg s) : c ∈ s := by
  induction s with
  | nil => exact h
  | cons d s ih =>
    rw [Run.dropAnyCfg] at h
    split at h
    next => exact List.mem_cons_of_mem _ (List.mem_of_mem_drop h)
    next => exact List.mem_cons.mpr ((List.mem_cons.mp h).imp_right ih)

theorem mem_of_mem_basename {c : Char} (h : c ∈ Run.basename s) : c ∈ s :=
  List.mem_reverse.mp ((List.takeWhile_sublist _).subset (List.mem_reverse.mp h))

theorem newline_not_mem_summaryNames {h : Run.Host} {bm : Text} (hbm : '\n' ∉ bm)
    (hlines : ∀ file, ∀ line ∈ h.lines file, '\n' ∉ line) (hname : name ∈ h.summaryNames bm) :
    '\n' ∉ name := by
  have hbad : '\n' ∉ badBmEntry := by decide
  have hbase : '\n' ∉ Run.getBmName bm := fun hmem =>
    hbm (mem_of_mem_basename (mem_of_mem_dropExtension hmem))
  unfold Run.Host.summaryNames at hname
  dsimp only at hname
  split at hname
  next =>
    split at hname
    next =>
      obtain ⟨trace, htrace, rfl⟩ := List.mem_map.mp hname
      obtain ⟨line, hline, rfl⟩ := List.mem_map.mp htrace
      have hfile := List.mem_of_mem_filter (List.mem_of_mem_filter hline)
      exact fun hmem => hlines _ line hfile
        ((List.rdropWhile_prefix _ _).subset (mem_of_mem_basename hmem))
    next => rwa [List.mem_singleton.mp hname]
  next =>
    split at hname
    next => rwa [List.mem_singleton.mp hname]
    next =>
      split at hname
      next =>
        rw [List.mem_singleton.mp hname]
        exact fun hmem => hbase (mem_of_mem_dropAnyCfg hmem)
      next => rwa [List.mem_singleton.mp hname]

theorem getLines_unlines {lines : List Text} (h : ∀ l ∈ lines, '\n' ∉ l) :
    getLines (unlines lines) = lines := by
  rw [getLines, Inifile.rawLines_unlines h, List.map_map]
  exact (List.map_congr_left fun l _ => Inifile.chomp_append_newline l).trans (List.map_id _)

/-- The lines of an invocation. -/
def Invocation.lines (inv : Invocation) : List Text :=
  [] :: (generatedBy ++ ' ' :: [' '].intercalate inv.argv ++ [' ']) ::
    inv.listed.flatMap fun e => [] :: e.lines

theorem unlines_lines (e : Listed) : unlines ([] :: e.lines) =
    '\n' :: (e.name ++ '\t' :: e.model) ++ '\n' :: unlines (e.entries.map (bmEntry ++ ·)) := by
  simp [unlines, Listed.lines, List.append_assoc]

theorem generateRunSummary_eq (inv : Invocation) : inv.generateRunSummary = unlines inv.lines := by
  have hexps : inv.exps.flatMap (fun e => inv.host.generateRunSummary e.name e.model e.bms) =
      unlines (inv.listed.flatMap fun e => [] :: e.lines) := by
    rw [Invocation.listed, unlines, List.flatMap_map, List.flatMap_assoc]
    refine List.flatMap_congr fun e _ => ?_
    have hnewline : "\n".toList = ['\n'] := rfl
    have htab : "\t".toList = ['\t'] := rfl
    rw [← unlines, unlines_lines, Run.Host.generateRunSummary, unlines, List.flatMap_map, hnewline,
      htab]
    simp only [List.append_assoc, List.cons_append, List.nil_append]
  rw [Invocation.generateRunSummary, hexps, Invocation.lines]
  simp [unlines]

theorem summaryFile_eq (invs : List Invocation) :
    summaryFile invs = unlines (summaryFileHeader :: invs.flatMap Invocation.lines) := by
  have hinvs : invs.flatMap Invocation.generateRunSummary =
      unlines (invs.flatMap Invocation.lines) := by
    rw [unlines, List.flatMap_assoc]
    exact List.flatMap_congr fun inv _ => generateRunSummary_eq inv
  rw [summaryFile, hinvs, unlines, unlines, List.flatMap_cons, List.append_assoc]
  rfl

/-- An experiment whose line is read as it is meant. -/
structure Listed.Readable (e : Listed) : Prop where
  name_ne : e.name ≠ []
  name_word : ∀ c ∈ e.name, inSpaceClass c = false
  name_hash : e.name.head? ≠ some '#'
  model_word : ∀ c ∈ e.model, inSpaceClass c = false

theorem Invocation.Readable.of_mem_listed (h : inv.Readable) (he : e ∈ inv.listed) :
    e.Readable := by
  obtain ⟨e', he', rfl⟩ := List.mem_map.mp he
  exact ⟨inv.name_ne e' he', inv.name_word e' he', h.name e' he', h.model e' he'⟩

theorem isSkipped_lines (he : e.Readable) {line : Text} (hline : line ∈ e.lines) :
    isSkipped line = false := by
  rcases List.mem_cons.mp hline with rfl | hentry
  · have hhash := he.name_hash
    have hword := he.name_word
    cases hname : e.name with
    | nil => exact absurd hname he.name_ne
    | cons c cs =>
      rw [hname] at hhash hword
      have hc : ¬ inSpaceClass c = true := by simp [hword c List.mem_cons_self]
      rw [isSkipped, List.cons_append, List.dropWhile_cons_of_neg hc]
      exact decide_eq_false fun h => hhash (congrArg some h)
  · obtain ⟨bm, -, rfl⟩ := List.mem_map.mp hentry
    rfl

theorem newline_not_mem_lines (h : inv.Readable) {line : Text} (hline : line ∈ inv.lines) :
    '\n' ∉ line := by
  have hspace : inSpaceClass '\n' = true := by decide
  have hword : ∀ text : Text, (∀ c ∈ text, inSpaceClass c = false) → '\n' ∉ text :=
    fun text htext hmem => Bool.false_ne_true ((htext _ hmem).symm.trans hspace)
  rcases List.mem_cons.mp hline with rfl | hline
  · exact List.not_mem_nil
  rcases List.mem_cons.mp hline with rfl | hline
  · have hargs : '\n' ∉ [' '].intercalate inv.argv := fun hmem => by
      rcases Splitting.mem_intercalate hmem with hc | ⟨arg, harg, hc⟩
      · exact absurd hc (by decide)
      · exact h.argv arg harg hc
    have hgenerated : '\n' ∉ generatedBy := by decide
    simp [hargs, hgenerated]
  · obtain ⟨e, he, hline⟩ := List.mem_flatMap.mp hline
    have hreadable := h.of_mem_listed he
    rcases List.mem_cons.mp hline with rfl | hline
    · exact List.not_mem_nil
    rcases List.mem_cons.mp hline with rfl | hentry
    · simp [hword _ hreadable.name_word, hword _ hreadable.model_word]
    · obtain ⟨bm, hbm, rfl⟩ := List.mem_map.mp hentry
      obtain ⟨e', he', rfl⟩ := List.mem_map.mp he
      obtain ⟨b, hb, hnames⟩ := List.mem_flatMap.mp hbm
      have hname := newline_not_mem_summaryNames (inv.bms_lines e' he' b hb) inv.host_lines hnames
      have hmark : '\n' ∉ bmEntry := by decide
      exact fun hmem => (List.mem_append.mp hmem).elim hmark hname

theorem filter_lines (h : inv.Readable) :
    inv.lines.filter (fun line => !isSkipped line) = inv.listed.flatMap Listed.lines := by
  have hcommand : isSkipped (generatedBy ++ ' ' :: [' '].intercalate inv.argv ++ [' ']) = true :=
    rfl
  have hblank : isSkipped [] = true := rfl
  rw [Invocation.lines, List.filter_cons_of_neg (by simp [hblank]),
    List.filter_cons_of_neg (by rw [hcommand]; decide), List.filter_flatMap]
  refine List.flatMap_congr fun e he => ?_
  rw [List.filter_cons_of_neg (by simp [hblank]), List.filter_eq_self]
  intro line hline
  rw [isSkipped_lines (h.of_mem_listed he) hline]
  rfl

/-- The lines of the summary that count. -/
theorem readSummary_summaryFile (h : ∀ inv ∈ invs, inv.Readable) :
    readSummary (summaryFile invs) =
      some ((invs.flatMap Invocation.listed).flatMap Listed.lines) := by
  have hheader : '\n' ∉ summaryFileHeader := by decide
  have hlines : getLines (summaryFile invs) =
      summaryFileHeader :: invs.flatMap Invocation.lines := by
    rw [summaryFile_eq]
    refine getLines_unlines fun line hline => ?_
    rcases List.mem_cons.mp hline with rfl | hline
    · exact hheader
    · obtain ⟨inv, hinv, hline⟩ := List.mem_flatMap.mp hline
      exact newline_not_mem_lines (h inv hinv) hline
  have hfound : isHeader summaryFileHeader = true := by decide
  rw [readSummary, hlines]
  dsimp only
  rw [if_pos hfound, List.filter_flatMap, List.flatMap_assoc]
  exact congrArg some (List.flatMap_congr fun inv hinv => filter_lines (h inv hinv))

/-! ### The loop over the entries -/

/-- What comes next is not an entry. -/
def EntriesEnd (rest : List Text) : Prop := rest.head?.bind stripEntry = none

/-- It takes the entries of one experiment, and their marks. -/
theorem entryLoop_eq {body : Tally → Text → Tally} (hrest : EntriesEnd rest) (front : List Text)
    (t : Tally) :
    entryLoop body (names.length + rest.length) (front ++ (names.map (bmEntry ++ ·) ++ rest))
        front.length t =
      (front ++ (names ++ rest), front.length + names.length, names.foldl body t) := by
  induction names generalizing front t with
  | nil =>
    cases rest with
    | nil => rfl
    | cons line rest =>
      have hget : (front ++ line :: rest)[front.length]? = some line := by
        rw [List.getElem?_append_right le_rfl, Nat.sub_self, List.getElem?_cons_zero]
      have hstrip : (some line).bind stripEntry = none := hrest
      simp only [List.map_nil, List.nil_append, List.length_nil, Nat.zero_add, List.length_cons]
      rw [entryLoop, hget, hstrip]
      rfl
  | cons bm names ih =>
    have hget : (front ++ ((bm :: names).map (bmEntry ++ ·) ++ rest))[front.length]? =
        some (bmEntry ++ bm) := by
      rw [List.getElem?_append_right le_rfl, Nat.sub_self]
      rfl
    have hstrip : (some (bmEntry ++ bm)).bind stripEntry = some bm := rfl
    have hset : (front ++ ((bm :: names).map (bmEntry ++ ·) ++ rest)).set front.length bm =
        front ++ [bm] ++ (names.map (bmEntry ++ ·) ++ rest) := by
      rw [List.set_append_right _ _ le_rfl, Nat.sub_self, List.append_assoc]
      rfl
    have hlength : (front ++ [bm]).length = front.length + 1 := List.length_append
    rw [List.length_cons, Nat.add_right_comm, entryLoop, hget, hstrip]
    dsimp only
    rw [hset, ← hlength, ih, hlength, List.append_assoc, List.foldl_cons, Nat.add_assoc,
      Nat.add_comm 1]
    rfl

theorem foldl_count (exp : Text) (t : Tally) :
    names.foldl (fun t bm => t.count (r.check exp bm)) t =
      ⟨t.exptotal + names.length,
        t.expfail + names.countP fun bm => r.check exp bm = .failed,
        t.exprunning + names.countP fun bm => r.check exp bm = .running⟩ := by
  induction names generalizing t with
  | nil => rfl
  | cons bm names ih =>
    rw [List.foldl_cons, ih, List.length_cons, List.countP_cons, List.countP_cons]
    cases hstatus : r.check exp bm <;> simp [Tally.count] <;> omega

/-! ### The loop over the experiments -/

namespace Listed
variable (r : Results) (e : Listed)

def fails : Bool :=
  !decide (e.IsBuilt r) || e.entries.any fun bm => r.check e.name bm = .failed

def runs : Bool := e.entries.any fun bm => r.check e.name bm = .running

end Listed

/-- Where the loop is: `rest` is left. -/
def At (front rest : List Text) (st : State) : Prop :=
  st.summary = front ++ rest ∧ st.iexp = front.length

/-- The loop comes from one state to another, in which `rest` is left, within so many rounds. -/
structure Comes (r : Results) (rounds : ℕ) (rest : List Text) (st st' : State) : Prop where
  loop : ∃ k ≤ rounds, ∀ fuel, r.verifyLoop (fuel + k) st = r.verifyLoop fuel st'
  left : ∃ front, At front rest st'

theorem At.getElem? {line : Text} (h : At front (line :: rest) st) :
    st.summary[st.iexp]? = some line := by
  rw [h.1, h.2, List.getElem?_append_right le_rfl, Nat.sub_self, List.getElem?_cons_zero]

theorem Comes.round {line : Text} {st' : State} (hat : At front (line :: rest) st)
    (hexp : r.verifyExp st line = some st') {front' rest' : List Text}
    (hleft : At front' rest' { st' with iexp := st'.iexp + 1 }) :
    Comes r 1 rest' st { st' with iexp := st'.iexp + 1 } := by
  refine ⟨⟨1, le_rfl, fun fuel => ?_⟩, front', hleft⟩
  rw [Results.verifyLoop, hat.getElem?]
  dsimp only
  rw [hexp, Option.bind_some]

theorem Comes.trans {m n : ℕ} {rest' : List Text} {st' st'' : State} (h : Comes r m rest st st')
    (h' : Comes r n rest' st' st'') : Comes r (m + n) rest' st st'' := by
  obtain ⟨k, hk, hloop⟩ := h.loop
  obtain ⟨k', hk', hloop'⟩ := h'.loop
  refine ⟨⟨k' + k, by omega, fun fuel => ?_⟩, h'.left⟩
  rw [← Nat.add_assoc, hloop, hloop']

theorem Comes.mono {m n : ℕ} {st' : State} (h : Comes r m rest st st') (hmn : m ≤ n) :
    Comes r n rest st st' := by
  obtain ⟨k, hk, hloop⟩ := h.loop
  exact ⟨⟨k, hk.trans hmn, hloop⟩, h.left⟩

/-- The counts for some entries. -/
def tally (r : Results) (exp : Text) (names : List Text) : Tally :=
  names.foldl (fun t bm => t.count (r.check exp bm)) ⟨0, 0, 0⟩

theorem tally_eq (exp : Text) : tally r exp names =
    ⟨names.length, names.countP fun bm => r.check exp bm = .failed,
      names.countP fun bm => r.check exp bm = .running⟩ := by
  rw [tally, foldl_count, Nat.zero_add, Nat.zero_add, Nat.zero_add]

theorem any_eq_countP_ne_zero (p : Text → Bool) :
    decide (names.countP p ≠ 0) = names.any p := by
  rw [Bool.eq_iff_iff, decide_eq_true_iff, List.any_eq_true, Ne, List.countP_eq_zero]
  push Not
  rfl

/-- What is printed for an experiment that is there. -/
def printedRate (r : Results) (exp apmfile : Text) (names : List Text) : Rate :=
  if r.buildError exp apmfile then .unknown else (tally r exp names).rate

/-- A line with an experiment, or with what is taken for one, that has a directory: its entries are
passed over. -/
theorem verifyExp_of_isDir {line exp apmfile : Text} (hsplit : splitLine line = (exp, some apmfile))
    (hdir : r.isDir (r.dir exp) = true) (hrest : EntriesEnd rest)
    (hat : At front (line :: (names.map (bmEntry ++ ·) ++ rest)) st) :
    ∃ st', r.verifyExp st line = some st' ∧
      At (front ++ line :: names) rest { st' with iexp := st'.iexp + 1 } ∧
      st'.fail = (st.fail || (r.buildError exp apmfile ||
        names.any fun bm => r.check exp bm = .failed)) ∧
      (r.buildError exp apmfile = false → st'.running = (st.running ||
        names.any fun bm => r.check exp bm = .running)) ∧
      st'.printed = st.printed ++ [(exp, printedRate r exp apmfile names)] := by
  have hsummary : st.summary = front ++ [line] ++ (names.map (bmEntry ++ ·) ++ rest) := by
    rw [hat.1, List.append_cons]
  have hfirst : st.iexp + 1 = (front ++ [line]).length := by rw [hat.2, List.length_append]; rfl
  have hleft : st.summary.length - (front ++ [line]).length = names.length + rest.length := by
    rw [hsummary]
    simp only [List.length_append, List.length_map]
    omega
  have hloop : ∀ body t, entryLoop body (names.length + rest.length)
      (front ++ [line] ++ (names.map (bmEntry ++ ·) ++ rest)) (front ++ [line]).length t =
        (front ++ [line] ++ (names ++ rest), (front ++ [line]).length + names.length,
          names.foldl body t) := fun _ t => entryLoop_eq hrest (front ++ [line]) t
  have hend : At (front ++ line :: names) rest ⟨front ++ [line] ++ (names ++ rest),
      (front ++ [line]).length + names.length - 1 + 1, st.fail, st.running, st.buildfound,
      st.printed⟩ := by
    refine ⟨by simp, ?_⟩
    simp only [List.length_append, List.length_cons, List.length_nil]
    omega
  unfold Results.verifyExp
  rw [hsplit]
  dsimp only
  rw [if_pos hdir, hfirst, hleft, hsummary, printedRate]
  cases hbuild : r.buildError exp apmfile with
  | true =>
    rw [if_pos rfl, hloop, if_pos rfl]
    exact ⟨_, rfl, hend, by simp, nofun, rfl⟩
  | false =>
    rw [if_neg Bool.false_ne_true, hloop, if_neg Bool.false_ne_true]
    refine ⟨_, rfl, hend, ?_, fun _ => ?_, rfl⟩
    · rw [Bool.false_or, ← any_eq_countP_ne_zero, ← tally, tally_eq]
    · rw [← any_eq_countP_ne_zero, ← tally, tally_eq]

/-- Without a directory, its entries are left over. -/
theorem verifyExp_of_not_isDir {line exp apmfile : Text}
    (hsplit : splitLine line = (exp, some apmfile)) (hdir : ¬ r.isDir (r.dir exp) = true)
    (hat : At front (line :: rest) st) :
    ∃ st', r.verifyExp st line = some st' ∧
      At (front ++ [line]) rest { st' with iexp := st'.iexp + 1 } ∧ st'.fail = true ∧
      st'.printed = st.printed ++ [(exp, .unknown)] := by
  unfold Results.verifyExp
  rw [hsplit]
  dsimp only
  rw [if_neg hdir]
  refine ⟨_, rfl, ⟨?_, ?_⟩, rfl, rfl⟩
  · exact hat.1.trans (List.append_cons ..)
  · show st.iexp + 1 = _
    rw [hat.2, List.length_append]
    rfl

/-- Entries that are left over are taken for experiments. When they have been passed, it has still
failed. -/
theorem comes_of_entries (hrest : EntriesEnd rest) (hfail : st.fail = true)
    (hat : At front (names.map (bmEntry ++ ·) ++ rest) st) :
    ∃ st' more, Comes r names.length rest st st' ∧ st'.fail = true ∧
      st'.printed = st.printed ++ more := by
  induction names generalizing front st with
  | nil => exact ⟨st, [], ⟨⟨0, le_rfl, fun _ => rfl⟩, front, hat⟩, hfail, (List.append_nil _).symm⟩
  | cons bm names ih =>
    obtain ⟨exp, apmfile, hsplit⟩ : ∃ exp apmfile,
        splitLine (bmEntry ++ bm) = (exp, some apmfile) := ⟨_, _, rfl⟩
    by_cases hdir : r.isDir (r.dir exp) = true
    · obtain ⟨st', hexp, hleft, hfail', -, hprinted⟩ := verifyExp_of_isDir hsplit hdir hrest hat
      have hround := (Comes.round hat hexp hleft).mono (Nat.le_add_left 1 names.length)
      exact ⟨_, _, hround, by rw [hfail', hfail, Bool.true_or], hprinted⟩
    · obtain ⟨st', hexp, hleft, hfail', hprinted⟩ := verifyExp_of_not_isDir hsplit hdir hat
      obtain ⟨st'', more, hcomes, hfail'', hprinted'⟩ :=
        ih (show ({ st' with iexp := st'.iexp + 1 } : State).fail = true from hfail') hleft
      have hround := ((Comes.round hat hexp hleft).trans hcomes).mono
        (Nat.add_comm 1 names.length).le
      refine ⟨st'', [(exp, .unknown)] ++ more, hround, hfail'', ?_⟩
      rw [hprinted', ← List.append_assoc]
      exact congrArg (· ++ more) hprinted

theorem splitLine_lines (he : e.Readable) :
    splitLine (e.name ++ '\t' :: e.model) = (e.name, some e.model) := by
  have hname : ∀ c ∈ e.name, (!inSpaceClass c) = true := fun c hc => by rw [he.name_word c hc]; rfl
  have hmodel : ∀ c ∈ e.model, (!inSpaceClass c) = true := fun c hc => by
    rw [he.model_word c hc]
    rfl
  have htake : (e.name ++ '\t' :: e.model).takeWhile (!inSpaceClass ·) = e.name := by
    rw [List.takeWhile_append_of_pos hname]
    exact List.append_nil _
  have hdrop : (e.name ++ '\t' :: e.model).dropWhile (!inSpaceClass ·) = '\t' :: e.model := by
    rw [List.dropWhile_append_of_pos hname]
    rfl
  have hblank : ('\t' :: e.model).dropWhile inSpaceClass = e.model := by
    rw [List.dropWhile_cons_of_pos (by decide)]
    cases hm : e.model with
    | nil => rfl
    | cons c cs =>
      exact List.dropWhile_cons_of_neg (by simp [he.model_word c (hm ▸ List.mem_cons_self)])
  have hword : e.model.takeWhile (!inSpaceClass ·) = e.model :=
    List.takeWhile_eq_self_iff.mpr hmodel
  rw [splitLine, htake, hdrop, if_neg (List.cons_ne_nil _ _), hblank, hword]

theorem entriesEnd_lines (he : e.Readable) : EntriesEnd (e.lines ++ rest) := by
  have hspace : inSpaceClass ' ' = true := by decide
  have hne : ∀ c, inSpaceClass c = false → c ≠ ' ' := fun c hc heq =>
    Bool.false_ne_true (hc.symm.trans (heq ▸ hspace))
  show stripEntry (e.name ++ '\t' :: e.model) = none
  have hname := he.name_word
  have hmodel := he.model_word
  match e.name, he.name_ne, hname with
  | [a], _, _ =>
    cases hm : e.model with
    | nil => rfl
    | cons c cs =>
      have hc := hne c (hmodel c (hm ▸ List.mem_cons_self))
      simp [stripEntry, hc]
  | [a, b], _, _ => simp [stripEntry]
  | a :: b :: c :: cs, _, hname =>
    have hc := hne c (hname c (by simp))
    simp [stripEntry, hc]

theorem entriesEnd_flatMap (h : ∀ e ∈ listed, e.Readable) :
    EntriesEnd (listed.flatMap Listed.lines) := by
  cases listed with
  | nil => rfl
  | cons e listed => exact entriesEnd_lines (h e List.mem_cons_self)

/-! ### Experiments -/

theorem check_eq_passed_iff {exp bm : Text} :
    r.check exp bm = .passed ↔ bm ≠ badBmEntry ∧ r.hasStats exp bm = true := by
  unfold Results.check
  split_ifs <;> simp_all

theorem check_eq_running_iff {exp bm : Text} :
    r.check exp bm = .running ↔ bm ≠ badBmEntry ∧ r.hasStats exp bm = false ∧
      r.hasFile exp bm ".ERROR" = false ∧
        (r.hasFile exp bm ".SUBMITTED" = true ∨ r.hasFile exp bm ".RUNNING" = true) := by
  unfold Results.check
  split_ifs <;> simp_all

theorem countP_check (exp : Text) (names : List Text) :
    (names.countP fun bm => r.check exp bm = .passed) +
      ((names.countP fun bm => r.check exp bm = .failed) +
        names.countP fun bm => r.check exp bm = .running) = names.length := by
  induction names with
  | nil => rfl
  | cons bm names ih =>
    simp only [List.countP_cons, List.length_cons]
    cases hstatus : r.check exp bm <;> simp <;> omega

theorem rate_tally (e : Listed) : (tally r e.name e.entries).rate = e.rate r := by
  have hcount := countP_check (r := r) e.name e.entries
  have hpassed : (e.entries.countP fun bm => bm ≠ badBmEntry && r.hasStats e.name bm) =
      e.entries.countP fun bm => r.check e.name bm = .passed :=
    List.countP_congr fun bm _ => by simp [check_eq_passed_iff]
  rw [tally_eq, Tally.rate, Listed.rate, hpassed]
  by_cases hentries : e.entries = []
  · rw [if_pos hentries, if_neg (by simp [hentries])]
  · rw [if_neg hentries, if_pos (by simpa using hentries)]
    dsimp only
    rw [← hcount, Nat.add_sub_cancel]

/-- One experiment, with all of its entries. -/
theorem comes_of_experiment (he : e.Readable) (hrest : EntriesEnd rest)
    (hat : At front (e.lines ++ rest) st) :
    ∃ st' block, Comes r e.lines.length rest st st' ∧ st'.fail = (st.fail || e.fails r) ∧
      (e.fails r = false → st'.running = (st.running || e.runs r)) ∧
      st'.printed = st.printed ++ block ∧ (e.IsBuilt r → block = [(e.name, e.rate r)]) := by
  have hlength : e.lines.length = 1 + e.entries.length := by
    rw [Listed.lines, List.length_cons, List.length_map, Nat.add_comm]
  by_cases hdir : r.isDir (r.dir e.name) = true
  · obtain ⟨st', hexp, hleft, hfail, hrunning, hprinted⟩ :=
      verifyExp_of_isDir (splitLine_lines he) hdir hrest hat
    have hbuilt : (!decide (e.IsBuilt r)) = r.buildError e.name e.model := by
      cases hbuild : r.buildError e.name e.model <;> simp [Listed.IsBuilt, hdir, hbuild]
    refine ⟨_, _, (Comes.round hat hexp hleft).mono (hlength ▸ Nat.le_add_right ..), ?_,
      fun hfails => hrunning ?_, hprinted, fun hbuilt' => ?_⟩
    · rw [Listed.fails, hbuilt]
      exact hfail
    · rw [Listed.fails, hbuilt] at hfails
      exact (Bool.or_eq_false_iff.mp hfails).1
    · rw [printedRate, hbuilt'.2, if_neg Bool.false_ne_true, rate_tally]
  · have hbuilt : ¬ e.IsBuilt r := fun h => hdir h.1
    have hfails : e.fails r = true := by simp [Listed.fails, hbuilt]
    obtain ⟨st', hexp, hleft, hfail, hprinted⟩ :=
      verifyExp_of_not_isDir (splitLine_lines he) hdir hat
    obtain ⟨st'', more, hcomes, hfail', hprinted'⟩ :=
      comes_of_entries hrest
        (show ({ st' with iexp := st'.iexp + 1 } : State).fail = true from hfail) hleft
    refine ⟨st'', [(e.name, .unknown)] ++ more, hlength ▸ (Comes.round hat hexp hleft).trans hcomes,
      ?_, fun h => ?_, ?_, fun h => absurd h hbuilt⟩
    · rw [hfail', hfails, Bool.or_true]
    · exact absurd (hfails.symm.trans h) (by decide)
    · rw [hprinted', ← List.append_assoc]
      exact congrArg (· ++ more) hprinted

/-- All experiments of a summary. -/
theorem comes_of_listed (h : ∀ e ∈ listed, e.Readable)
    (hat : At front (listed.flatMap Listed.lines) st) :
    ∃ st' blocks, Comes r (listed.flatMap Listed.lines).length [] st st' ∧
      st'.fail = (st.fail || listed.any (·.fails r)) ∧
      (listed.any (·.fails r) = false →
        st'.running = (st.running || listed.any (·.runs r))) ∧
      st'.printed = st.printed ++ blocks.flatten ∧
      List.Forall₂ (fun e block => e.IsBuilt r → block = [(e.name, e.rate r)]) listed blocks := by
  induction listed generalizing front st with
  | nil =>
    exact ⟨st, [], ⟨⟨0, le_rfl, fun _ => rfl⟩, front, hat⟩, (Bool.or_false _).symm,
      fun _ => (Bool.or_false _).symm, (List.append_nil _).symm, .nil⟩
  | cons e listed ih =>
    obtain ⟨he, hlisted⟩ := List.forall_mem_cons.mp h
    obtain ⟨st', block, hcomes, hfail, hrunning, hprinted, hblock⟩ :=
      comes_of_experiment he (entriesEnd_flatMap hlisted) hat
    obtain ⟨front', hleft⟩ := hcomes.left
    obtain ⟨st'', blocks, hcomes', hfail', hrunning', hprinted', hblocks⟩ := ih hlisted hleft
    refine ⟨st'', block :: blocks, ?_, ?_, fun hfails => ?_, ?_, .cons hblock hblocks⟩
    · rw [List.flatMap_cons, List.length_append]
      exact hcomes.trans hcomes'
    · rw [hfail', hfail, List.any_cons, Bool.or_assoc]
    · rw [List.any_cons] at hfails
      obtain ⟨hone, hrest⟩ := Bool.or_eq_false_iff.mp hfails
      rw [hrunning' hrest, hrunning hone, List.any_cons, Bool.or_assoc]
    · rw [hprinted', hprinted, List.flatten_cons, List.append_assoc]

/-! ### Whole summaries -/

theorem unfailed_iff (e : Listed) : e.Unfailed r ↔ e.fails r = false := by
  have hcheck : ∀ bm, (r.check e.name bm ≠ .failed ↔ bm ≠ badBmEntry ∧
      (r.hasStats e.name bm = true ∨ r.hasFile e.name bm ".ERROR" = false ∧
        (r.hasFile e.name bm ".SUBMITTED" = true ∨ r.hasFile e.name bm ".RUNNING" = true))) := by
    intro bm
    unfold Results.check
    split_ifs <;> simp_all
  rw [Listed.Unfailed, Listed.fails, Bool.or_eq_false_iff, Bool.not_eq_false', decide_eq_true_iff,
    List.any_eq_false]
  refine and_congr_right fun _ => forall₂_congr fun bm _ => ?_
  rw [← hcheck, decide_eq_true_iff]

theorem passed_iff (e : Listed) : e.Passed r ↔ e.fails r = false ∧ e.runs r = false := by
  rw [← unfailed_iff, Listed.runs, List.any_eq_false]
  constructor
  · rintro ⟨hbuilt, hentries⟩
    refine ⟨⟨hbuilt, fun bm hbm => ⟨(hentries bm hbm).1, Or.inl (hentries bm hbm).2⟩⟩,
      fun bm hbm => ?_⟩
    rw [check_eq_passed_iff.mpr (hentries bm hbm)]
    decide
  · rintro ⟨⟨hbuilt, hentries⟩, hruns⟩
    refine ⟨hbuilt, fun bm hbm => ⟨(hentries bm hbm).1, ?_⟩⟩
    obtain ⟨hknown, hstats | ⟨herror, hjob⟩⟩ := hentries bm hbm
    · exact hstats
    · by_contra hstats
      have hrunning := check_eq_running_iff.mpr ⟨hknown, Bool.eq_false_of_not_eq_true hstats,
        herror, hjob⟩
      exact hruns bm hbm (decide_eq_true hrunning)

/-- An entry without stats, where nothing has failed, is still running. -/
theorem runs_iff (h : e.Unfailed r) :
    e.runs r = true ↔ ∃ bm ∈ e.entries, r.hasStats e.name bm = false := by
  rw [Listed.runs, List.any_eq_true]
  constructor
  · rintro ⟨bm, hbm, hrunning⟩
    exact ⟨bm, hbm, (check_eq_running_iff.mp (of_decide_eq_true hrunning)).2.1⟩
  · rintro ⟨bm, hbm, hstats⟩
    obtain ⟨hknown, hstats' | ⟨herror, hjob⟩⟩ := h.2 bm hbm
    · rw [hstats] at hstats'
      cases hstats'
    · exact ⟨bm, hbm, decide_eq_true (check_eq_running_iff.mpr ⟨hknown, hstats, herror, hjob⟩)⟩

theorem verifies_of_flags {fail running : Bool} {printed : List (Text × Rate)}
    (hfail : fail = listed.any (·.fails r))
    (hrunning : listed.any (·.fails r) = false → running = listed.any (·.runs r))
    (hrates : ∃ blocks : List (List (Text × Rate)), printed = blocks.flatten ∧
      List.Forall₂ (fun e block => e.IsBuilt r → block = [(e.name, e.rate r)]) listed blocks) :
    Verifies r listed (if fail then 1 else if running then 2 else 0) printed := by
  have hunfailed : (∀ e ∈ listed, e.Unfailed r) ↔ fail = false := by
    rw [hfail, List.any_eq_false]
    exact forall₂_congr fun e _ => (unfailed_iff e).trans (by rw [Bool.not_eq_true])
  have hruns : fail = false → (running = true ↔
      ∃ e ∈ listed, ∃ bm ∈ e.entries, r.hasStats e.name bm = false) := by
    intro hno
    rw [hrunning (hfail.symm.trans hno), List.any_eq_true]
    exact exists_congr fun e => and_congr_right fun he => runs_iff (hunfailed.mpr hno e he)
  have hpassed : (∀ e ∈ listed, e.Passed r) ↔ fail = false ∧ running = false := by
    constructor
    · intro hall
      have hno : fail = false := hunfailed.mp fun e he =>
        (unfailed_iff e).mpr ((passed_iff e).mp (hall e he)).1
      refine ⟨hno, ?_⟩
      rw [hrunning (hfail.symm.trans hno), List.any_eq_false]
      exact fun e he => (Bool.not_eq_true _).mpr ((passed_iff e).mp (hall e he)).2
    · rintro ⟨hno, hidle⟩ e he
      rw [hrunning (hfail.symm.trans hno), List.any_eq_false] at hidle
      exact (passed_iff e).mpr ⟨(unfailed_iff e).mp (hunfailed.mpr hno e he),
        (Bool.not_eq_true _).mp (hidle e he)⟩
  refine ⟨?_, ?_, ?_, hrates⟩
  · rw [hpassed]
    cases fail <;> cases running <;> simp
  · rw [hunfailed]
    cases fail with
    | true => simp
    | false => cases running <;> simp [← hruns rfl]
  · cases fail <;> cases running <;> simp

theorem verifyLoop_finished (h : st.summary.length = st.iexp) (fuel : ℕ) :
    r.verifyLoop fuel st = some st := by
  cases fuel with
  | zero => exact if_neg (by omega)
  | succ n => rw [Results.verifyLoop, List.getElem?_eq_none h.le]

/-- If its lines can be read, the summary of any number of invocations is verified as it should be,
each experiment with its own entries. -/
theorem verifier_summaryFile (h : ∀ inv ∈ invs, inv.Readable) : Verified r invs := by
  have hreadable : ∀ e ∈ invs.flatMap Invocation.listed, e.Readable := fun e he => by
    obtain ⟨inv, hinv, he⟩ := List.mem_flatMap.mp he
    exact (h inv hinv).of_mem_listed he
  have hat : At [] ((invs.flatMap Invocation.listed).flatMap Listed.lines)
      ⟨(invs.flatMap Invocation.listed).flatMap Listed.lines, 0, false, false, false, []⟩ :=
    ⟨rfl, rfl⟩
  obtain ⟨st', blocks, hcomes, hfail, hrunning, hprinted, hblocks⟩ :=
    comes_of_listed (r := r) hreadable hat
  obtain ⟨⟨k, hk, hloop⟩, front, hsummary, hiexp⟩ := hcomes
  refine ⟨st'.exitCode, st'.printed,
    verifies_of_flags hfail hrunning ⟨blocks, hprinted, hblocks⟩, k, fun fuel hfuel => ?_⟩
  have hlength : st'.summary.length = st'.iexp := by rw [hsummary, hiexp, List.append_nil]
  rw [Results.verifier, readSummary_summaryFile h]
  dsimp only
  rw [← Nat.sub_add_cancel hfuel, hloop, verifyLoop_finished hlength]
  rfl

/-- All benchmarks have files, and every path is its own full path. -/
def plainHost : Run.Host where
  resdir := ['r']
  replace := false
  runbatch := false
  compress := "gzip".toList
  batchScrInputs := []
  execscript := "./run".toList
  params := id
  fullPath := id
  isFile _ := true
  lines _ := []
  answer _ _ := false

def Experiment.isPlain (e : Experiment) : Bool :=
  e.name ≠ [] && e.name.all (!inSpaceClass ·) && e.bms.all (!·.contains '\n')

theorem Experiment.plain {e : Experiment} (h : e.isPlain = true) :
    e.name ≠ [] ∧ (∀ c ∈ e.name, inSpaceClass c = false) ∧ ∀ bm ∈ e.bms, '\n' ∉ bm := by
  simpa [isPlain, and_assoc] using h

def plainInvocation (argv : List Text) (exps : List Experiment)
    (hexps : exps.all Experiment.isPlain = true) : Invocation where
  host := plainHost
  argv := argv
  exps := exps
  name_ne e he := (Experiment.plain (List.all_eq_true.mp hexps e he)).1
  name_word e he := (Experiment.plain (List.all_eq_true.mp hexps e he)).2.1
  bms_lines e he := (Experiment.plain (List.all_eq_true.mp hexps e he)).2.2
  host_lines _ _ h := absurd h List.not_mem_nil

/-- There is the directory of the experiment `a`, and one file. -/
def oneDirectory (file : String) : Results where
  resdir := ['r']
  isDir path := path = "r/a".toList
  isFile path := path = file.toList

/-- One benchmark has run, and the other one has not. -/
theorem verified_twoBenchmarks : Verified (oneDirectory "r/a/x.stats.gz") [plainInvocation
    ["-b".toList] [⟨['a'], "/m.apm".toList, ["x.cfg".toList, "y.cfg".toList]⟩] (by decide +kernel)] := by
  refine verifier_summaryFile fun inv hinv => ?_
  obtain rfl := List.mem_singleton.mp hinv
  refine ⟨by decide +kernel, fun e he => ?_, fun e he => ?_⟩
  · obtain rfl := List.mem_singleton.mp he
    decide
  · obtain rfl := List.mem_singleton.mp he
    have hall : "/m.apm".toList.all (!inSpaceClass ·) = true := by decide
    exact fun c hc => Bool.not_eq_true' _ ▸ List.all_eq_true.mp hall c hc

theorem Verified.verifies {summary : List Text} (h : Verified r invs)
    (hread : readSummary (summaryFile invs) = some summary) {n : ℕ}
    (hloop : ∀ fuel, r.verifyLoop (fuel + n) ⟨summary, 0, false, false, false, []⟩ = some st) :
    Verifies r (invs.flatMap Invocation.listed) st.exitCode st.printed := by
  obtain ⟨code, printed, hverifies, bound, hbound⟩ := h
  have hcode := hbound (bound + n) (Nat.le_add_right ..)
  rw [Results.verifier, hread] at hcode
  dsimp only at hcode
  rw [hloop, Option.map_some, Option.some_inj, Prod.mk.injEq] at hcode
  rw [hcode.1, hcode.2]
  exact hverifies

theorem verifyLoop_of_one {line : Text}
    (hexp : r.verifyExp ⟨[line], 0, false, false, false, []⟩ line = some st)
    (hst : st.summary.length = st.iexp + 1) (fuel : ℕ) :
    r.verifyLoop (fuel + 1) ⟨[line], 0, false, false, false, []⟩ =
      some { st with iexp := st.iexp + 1 } := by
  rw [Results.verifyLoop, List.getElem?_cons_zero]
  dsimp only
  rw [hexp, Option.bind_some]
  exact verifyLoop_finished hst fuel

/-- The experiment is taken for a comment, the path of its model is read up to the blank, or the
second line of an argument is taken for an experiment. -/
theorem not_verified :
    ¬ Verified (oneDirectory "") [plainInvocation [] [⟨"#b".toList, "/m.apm".toList, []⟩]
      (by decide +kernel)] ∧
    ¬ Verified (oneDirectory "r/a/m.ERROR") [plainInvocation [] [⟨['a'], "/w w/m.apm".toList, []⟩]
      (by decide +kernel)] ∧
    ¬ Verified (oneDirectory "") [plainInvocation ["x\nb m".toList] [] (by decide +kernel)] := by
  refine ⟨fun h => ?_, fun h => ?_, fun h => ?_⟩
  · have hread : readSummary (summaryFile [plainInvocation [] [⟨"#b".toList, "/m.apm".toList, []⟩]
        (by decide +kernel)]) = some [] := by decide +kernel
    have hverifies := h.verifies hread fun fuel => verifyLoop_finished rfl (fuel + 0)
    have hpassed := hverifies.passed.mp rfl _ (List.mem_singleton_self _)
    exact absurd hpassed.1.1 (by decide +kernel)
  · have hread : readSummary (summaryFile [plainInvocation []
        [⟨['a'], "/w w/m.apm".toList, []⟩] (by decide +kernel)]) = some ["a\t/w w/m.apm".toList] := by
      decide +kernel
    have hexp : (oneDirectory "r/a/m.ERROR").verifyExp
        ⟨["a\t/w w/m.apm".toList], 0, false, false, false, []⟩ "a\t/w w/m.apm".toList =
          some ⟨["a\t/w w/m.apm".toList], 0, false, false, false, [(['a'], .noBenchmarks)]⟩ := by
      decide +kernel
    have hverifies := h.verifies hread (verifyLoop_of_one hexp rfl)
    have hpassed := hverifies.passed.mp rfl _ (List.mem_singleton_self _)
    exact absurd hpassed.1.2 (by decide +kernel)
  · have hread : readSummary (summaryFile [plainInvocation ["x\nb m".toList] [] (by decide +kernel)]) =
        some ["b m ".toList] := by decide +kernel
    have hexp : (oneDirectory "").verifyExp ⟨["b m ".toList], 0, false, false, false, []⟩
        "b m ".toList = some ⟨["b m ".toList], 0, true, false, false, [(['b'], .unknown)]⟩ := by
      decide +kernel
    have hverifies := h.verifies hread (verifyLoop_of_one hexp rfl)
    exact absurd (hverifies.passed.mpr fun e he => absurd he List.not_mem_nil) (by decide +kernel)

/-! ### Any summary -/

section any
variable {body : Tally → Text → Tally} {left ibm j : ℕ} {summary original : List Text} {t : Tally}
  {line : Text} {st' : State}

theorem entryLoop_spec (body : Tally → Text → Tally) (left : ℕ) (summary : List Text) (ibm : ℕ)
    (t : Tally) : (entryLoop body left summary ibm t).1.length = summary.length ∧
      ibm ≤ (entryLoop body left summary ibm t).2.1 ∧
      ∀ j, (entryLoop body left summary ibm t).2.1 ≤ j →
        (entryLoop body left summary ibm t).1[j]? = summary[j]? := by
  induction left generalizing summary ibm t with
  | zero => exact ⟨rfl, le_rfl, fun _ _ => rfl⟩
  | succ left ih =>
    rw [entryLoop]
    cases summary[ibm]?.bind stripEntry with
    | none => exact ⟨rfl, le_rfl, fun _ _ => rfl⟩
    | some bm =>
      dsimp only
      obtain ⟨hlength, hle, hget⟩ := ih (summary.set ibm bm) (ibm + 1) (body t bm)
      refine ⟨by rw [hlength, List.length_set], (Nat.le_succ ibm).trans hle, fun j hj => ?_⟩
      rw [hget j hj, List.getElem?_set_ne (by omega)]

/-- No experiment has more failures and unfinished runs than entries. -/
def Tally.Ok (t : Tally) : Prop := t.expfail + t.exprunning ≤ t.exptotal

theorem Tally.ok_count (h : t.Ok) (status : Status) : (t.count status).Ok := by
  unfold Tally.Ok at h ⊢
  cases status <;> simp only [Tally.count] <;> omega

theorem entryLoop_ok {check : Text → Status} (h : t.Ok) :
    (entryLoop (fun t bm => t.count (check bm)) left summary ibm t).2.2.Ok := by
  induction left generalizing summary ibm t with
  | zero => exact h
  | succ left ih =>
    rw [entryLoop]
    cases summary[ibm]?.bind stripEntry with
    | none => exact h
    | some bm => exact ih (Tally.ok_count h (check bm))

/-- Everything has passed, if there is anything. -/
def Rate.Full : Rate → Prop
  | .unknown => False
  | .noBenchmarks => True
  | .of passed total => passed = total

theorem Tally.full_rate_iff (h : t.Ok) : t.rate.Full ↔ t.expfail = 0 ∧ t.exprunning = 0 := by
  unfold Tally.Ok at h
  unfold Tally.rate
  split_ifs with htotal
  · simp only [Rate.Full]
    omega
  · simp only [Rate.Full, true_iff]
    omega

/-- What one turn of the loop does. -/
structure Advances (st st' : State) : Prop where
  length : st'.summary.length = st.summary.length
  iexp : st.iexp ≤ st'.iexp
  behind : ∀ j, st'.iexp < j → st'.summary[j]? = st.summary[j]?
  printed : ∃ rate, st'.printed.map Prod.snd = st.printed.map Prod.snd ++ [rate] ∧
    (st'.fail = false ∧ st'.running = false ↔
      (st.fail = false ∧ st.running = false) ∧ rate.Full)

theorem advances (h : r.verifyExp st line = some st') : Advances st st' := by
  unfold Results.verifyExp at h
  rcases hsplit : splitLine line with ⟨exp, _ | apmfile⟩
  · rw [hsplit] at h
    cases h
  · rw [hsplit] at h
    dsimp only at h
    split_ifs at h with hdir hbuild
    · have hspec := entryLoop_spec (fun t _ => t) (st.summary.length - (st.iexp + 1)) st.summary
        (st.iexp + 1) ⟨0, 0, 0⟩
      rcases hout : entryLoop (fun t _ => t) (st.summary.length - (st.iexp + 1)) st.summary
        (st.iexp + 1) ⟨0, 0, 0⟩ with ⟨summary, ibm, t⟩
      rw [hout] at h hspec
      obtain ⟨hlength, hle, hget⟩ := hspec
      obtain rfl := Option.some.inj h
      refine ⟨hlength, Nat.le_pred_of_lt hle, fun j hj => hget j (Nat.le_of_pred_lt hj),
        .unknown, by simp, ?_⟩
      simp [Rate.Full]
    · have hspec := entryLoop_spec (fun t bm => t.count (r.check exp bm))
        (st.summary.length - (st.iexp + 1)) st.summary (st.iexp + 1) ⟨0, 0, 0⟩
      have hok := @entryLoop_ok (st.summary.length - (st.iexp + 1)) (st.iexp + 1) st.summary
        ⟨0, 0, 0⟩ (r.check exp) (Nat.le_refl 0)
      rcases hout : entryLoop (fun t bm => t.count (r.check exp bm))
        (st.summary.length - (st.iexp + 1)) st.summary (st.iexp + 1) ⟨0, 0, 0⟩ with
        ⟨summary, ibm, t⟩
      rw [hout] at h hspec hok
      obtain ⟨hlength, hle, hget⟩ := hspec
      obtain rfl := Option.some.inj h
      refine ⟨hlength, Nat.le_pred_of_lt hle, fun j hj => hget j (Nat.le_of_pred_lt hj),
        t.rate, by simp, ?_⟩
      rw [Tally.full_rate_iff hok]
      simp only [Bool.or_eq_false_iff, decide_eq_false_iff_not, not_not]
      tauto
    · obtain rfl := Option.some.inj h
      refine ⟨rfl, le_rfl, fun _ _ => rfl, .unknown, by simp, ?_⟩
      simp [Rate.Full]

/-- As many turns as there are lines left are enough. -/
theorem verifyLoop_fuel {n fuel : ℕ} (hn : st.summary.length ≤ st.iexp + n) (hfuel : n ≤ fuel) :
    r.verifyLoop fuel st = r.verifyLoop n st := by
  induction n generalizing st fuel with
  | zero =>
    have hnone : st.summary[st.iexp]? = none := List.getElem?_eq_none hn
    cases fuel with
    | zero => rfl
    | succ fuel =>
      simp only [Results.verifyLoop, hnone]
      exact (if_neg (Nat.not_lt.mpr hn)).symm
  | succ n ih =>
    obtain ⟨fuel, rfl⟩ : ∃ k, fuel = k + 1 := ⟨fuel - 1, by omega⟩
    rw [Results.verifyLoop, Results.verifyLoop]
    cases st.summary[st.iexp]? with
    | none => rfl
    | some line =>
      dsimp only
      cases hexp : r.verifyExp st line with
      | none => rfl
      | some st' =>
        have hadv := advances hexp
        have hlength := hadv.length
        have hiexp := hadv.iexp
        exact @ih { st' with iexp := st'.iexp + 1 } fuel (by dsimp only; omega)
          (Nat.le_of_succ_le_succ hfuel)

/-- What holds in front of every turn. -/
structure Verifying (original : List Text) (st : State) : Prop where
  length : st.summary.length = original.length
  behind : ∀ j, st.iexp ≤ j → st.summary[j]? = original[j]?
  printed : st.printed.length ≤ st.iexp
  full : st.fail = false ∧ st.running = false ↔ ∀ p ∈ st.printed, p.2.Full

theorem Verifying.next (h : Verifying original st) (hexp : r.verifyExp st line = some st') :
    Verifying original { st' with iexp := st'.iexp + 1 } := by
  obtain ⟨hlength, hiexp, hbehind, rate, hprinted, hfull⟩ := advances hexp
  refine ⟨hlength.trans h.length, fun j hj => ?_, ?_, ?_⟩
  · dsimp only at hj ⊢
    rw [hbehind j hj, h.behind j (by omega)]
  · have hcount := congrArg List.length hprinted
    simp only [List.length_map, List.length_append, List.length_singleton] at hcount
    have hold := h.printed
    dsimp only
    omega
  · have hold : (∀ p ∈ st.printed, p.2.Full) ↔ ∀ rate ∈ st.printed.map Prod.snd, rate.Full :=
      List.forall_mem_map.symm
    have hnew : (∀ p ∈ st'.printed, p.2.Full) ↔ ∀ rate ∈ st'.printed.map Prod.snd, rate.Full :=
      List.forall_mem_map.symm
    dsimp only
    rw [hfull, h.full, hold, hnew, hprinted, List.forall_mem_append, List.forall_mem_singleton]

theorem Verifying.verifyLoop (h : Verifying original st)
    (hpaths : ∀ line ∈ original, (splitLine line).2 ≠ none) {n : ℕ}
    (hn : st.summary.length ≤ st.iexp + n) : ∃ st', r.verifyLoop n st = some st' ∧
      st'.printed.length ≤ st.printed.length + n ∧
      (st'.fail = false ∧ st'.running = false ↔ ∀ p ∈ st'.printed, p.2.Full) := by
  induction n generalizing st with
  | zero =>
    exact ⟨st, by rw [Results.verifyLoop, if_neg (by omega)], le_rfl, h.full⟩
  | succ n ih =>
    rw [Results.verifyLoop]
    cases hline : st.summary[st.iexp]? with
    | none => exact ⟨st, rfl, by omega, h.full⟩
    | some line =>
      have hmem : line ∈ original :=
        List.mem_of_getElem? ((h.behind _ le_rfl).symm.trans hline)
      obtain ⟨apmfile, hpath⟩ := Option.ne_none_iff_exists'.mp (hpaths line hmem)
      obtain ⟨st', hexp⟩ : ∃ st', r.verifyExp st line = some st' := by
        unfold Results.verifyExp
        rcases hsplit : splitLine line with ⟨exp, path⟩
        rw [hsplit] at hpath
        obtain rfl := hpath
        dsimp only
        split_ifs <;> exact ⟨_, rfl⟩
      obtain ⟨hlength, hiexp, -, rate, hprinted, -⟩ := advances hexp
      have hcount := congrArg List.length hprinted
      simp only [List.length_map, List.length_append, List.length_singleton] at hcount
      obtain ⟨st'', hloop, hlast, hfull⟩ := ih (h.next hexp) (by dsimp only; omega)
      refine ⟨st'', ?_, by dsimp only at hlast; omega, hfull⟩
      dsimp only
      rw [hexp, Option.bind_some]
      exact hloop

/-- Whatever the summary says, the verifier looks at no line twice: as many turns as there are lines
are enough. If every line names a path it comes to its end, with at most one rate for a line, and
exits with 0 exactly if every rate that is printed says that all has passed. -/
theorem verifier_ends (r : Results) {text : Text} (hread : readSummary text = some summary) :
    (∀ fuel, summary.length ≤ fuel → r.verifier fuel text = r.verifier summary.length text) ∧
      ((∀ line ∈ summary, (splitLine line).2 ≠ none) → ∃ code printed,
        r.verifier summary.length text = some (code, printed) ∧
          printed.length ≤ summary.length ∧ (code = 0 ↔ ∀ p ∈ printed, p.2.Full)) := by
  have hlength : summary.length ≤ 0 + summary.length := (Nat.zero_add _).ge
  refine ⟨fun fuel hfuel => ?_, fun hpaths => ?_⟩
  · rw [Results.verifier, Results.verifier, hread]
    dsimp only
    rw [@verifyLoop_fuel r ⟨summary, 0, false, false, false, []⟩ summary.length fuel hlength hfuel]
  · have hstart : Verifying summary ⟨summary, 0, false, false, false, []⟩ :=
      ⟨rfl, fun _ _ => rfl, le_rfl, iff_of_true ⟨rfl, rfl⟩ fun _ hp => absurd hp List.not_mem_nil⟩
    obtain ⟨st, hloop, hprinted, hfull⟩ := hstart.verifyLoop (r := r) hpaths hlength
    refine ⟨st.exitCode, st.printed, ?_, by simpa using hprinted, ?_⟩
    · rw [Results.verifier, hread]
      dsimp only
      rw [hloop, Option.map_some]
    · rw [← hfull, State.exitCode]
      split_ifs <;> simp_all

theorem ends_oneLine : ∃ code printed,
    (oneDirectory "").verifier 1 "# awb-run 1.0\nb m\n".toList = some (code, printed) ∧
      printed.length ≤ 1 ∧ (code = 0 ↔ ∀ p ∈ printed, p.2.Full) := by
  have hread : readSummary "# awb-run 1.0\nb m\n".toList = some ["b m".toList] := by
    decide +kernel
  refine (verifier_ends (oneDirectory "") hread).2 fun line hline => ?_
  rw [List.mem_singleton.mp hline]
  decide

end any

end Awb.Regression.Verifier
