import Awb.Inifile.Lines
import Awb.Lib.Splitting
import Mathlib.Data.Char
import Mathlib.Tactic

/-! The history of statistics of a package: `write_stats` puts a section with the serial number at
the end of a file, and `read_stats` looks for the last number by patterns. -/

namespace Awb.Package

/-! ### Writing -/

/-- The statistics of a change: a value of the metric for every benchmark. -/
structure StatsReport where
  csn : Nat
  stats : List (Text × ℚ)

/-- `%.3f` in thousandths; what is in the middle is rounded to an even digit. -/
def thousandths (value : ℚ) : Nat :=
  let floor := ⌊value * 1000⌋.toNat
  let rest := value * 1000 - floor
  if rest < 1 / 2 ∨ rest = 1 / 2 ∧ floor % 2 = 0 then floor else floor + 1

def formatValue (value : ℚ) : Text :=
  let n := thousandths value
  Nat.toDigits 10 (n / 1000) ++ '.' ::
    [Nat.digitChar (n % 1000 / 100), Nat.digitChar (n % 100 / 10), Nat.digitChar (n % 10)]

def benchPrefixes : List Text := ["A-", "B-", "M-", "CMP-", "MICRO-"].map String.toList

/-- A name that begins with one of the prefixes. -/
def isStatsBench (bench : Text) : Bool := benchPrefixes.any fun p => p.isPrefixOf bench

def csnLine (name : Text) (csn : Nat) : Text :=
  "== CSN CSN-".toList ++ name ++ '-' :: Nat.toDigits 10 csn

/-- `%-40s ` for the benchmark, and `$field $data ` for its metric. -/
def benchLine (metric : Text) (entry : Text × ℚ) : Text :=
  entry.1.rightpad 40 ' ' ++ ' ' :: (metric ++ ' ' :: (formatValue entry.2 ++ [' ']))

/-- The benchmarks that are written, in the order of their names. -/
def StatsReport.written (report : StatsReport) : List (Text × ℚ) :=
  (report.stats.insertionSort fun a b => a.1 ≤ b.1).filter fun entry =>
    isStatsBench entry.1 && 0 < entry.2

def sectionLines (metric name : Text) (report : StatsReport) : List Text :=
  csnLine name report.csn :: report.written.map (benchLine metric)

def writeStats (metric name file : Text) (report : StatsReport) : Text :=
  file ++ unlines (sectionLines metric name report)

/-- The file after some calls of `write_stats`. -/
def history (metric name : Text) (reports : List StatsReport) : Text :=
  reports.foldl (writeStats metric name) []

/-! ### Reading -/

/-- `\s`. -/
def isSpace (c : Char) : Bool := [' ', '\t', '\n', '\r', '\x0c'].contains c

/-- The lines that `grep CSN` prints. -/
def hasCsn (line : Text) : Bool := decide ("CSN".toList <:+: line)

/-- `(\d+)`, behind `[^\d]*`. -/
def firstNumber (text : Text) : Text :=
  (text.dropWhile fun c => !c.isDigit).takeWhile Char.isDigit

/-- What follows the first `== CSN`. -/
def behindCsn (line : Text) : Option Text :=
  (line.tails.find? fun t => "== CSN".toList.isPrefixOf t).map (·.drop 6)

/-- `/== CSN[^\d]*(\d+)/`. -/
def csnNumber (line : Text) : Option Text :=
  match (behindCsn line).map firstNumber with
  | some (c :: cs) => some (c :: cs)
  | _ => none

/-- `/== CSN[^\d]*$high_sn/`. -/
def followsCsn (highSn line : Text) : Bool :=
  line.tails.any fun t => "== CSN".toList.isPrefixOf t &&
    highSn.isPrefixOf ((t.drop 6).dropWhile fun c => !c.isDigit)

/-- `/^((A|B|M|CMP|MICRO)-[^ ]*)/`. -/
def benchOf (line : Text) : Option Text :=
  if isStatsBench line then some (line.takeWhile (· ≠ ' ')) else none

/-- `(\d+\.\d+)`, at the beginning. -/
def decimal (text : Text) : Option Text :=
  let int := text.takeWhile Char.isDigit
  match text.drop int.length with
  | '.' :: cs =>
    let frac := cs.takeWhile Char.isDigit
    if int = [] ∨ frac = [] then none else some (int ++ '.' :: frac)
  | _ => none

/-- `\s$metric\s+(\d+\.\d+)`, at the beginning. -/
def metricAt (metric : Text) : Text → Option Text
  | c :: cs =>
    if isSpace c && metric.isPrefixOf cs then
      let rest := cs.drop metric.length
      if (rest.takeWhile isSpace).isEmpty then none else decimal (rest.dropWhile isSpace)
    else none
  | [] => none

/-- `/\s$metric\s+(\d+\.\d+)/`. -/
def valueOf (metric line : Text) : Option Text := line.tails.findSome? (metricAt metric)

/-- The loop over the lines of a section. -/
def addStats (metric : Text) (stats : Text → Option Text) (line : Text) : Text → Option Text :=
  match benchOf line, valueOf metric line with
  | some bench, some value => Function.update stats bench (some value)
  | _, _ => stats

/-- The number of the last line with `CSN`. -/
def highSn (lines : List Text) : Option Text := (lines.filter hasCsn).getLast?.bind csnNumber

/-- `read_stats`: the values of the metric that it finds. -/
def readStats (metric file : Text) : Text → Option Text :=
  let lines := Inifile.rawLines file
  match highSn lines with
  | none => fun _ => none
  | some sn => ((lines.dropWhile fun line => !followsCsn sn line).drop 1).foldl (addStats metric)
      fun _ => none

/-! ### What should be read -/

/-- The values of a report, with three decimals. -/
def StatsReport.values (report : StatsReport) (bench : Text) : Option Text :=
  (report.stats.lookup bench).map formatValue

/-- Benchmarks and values that `write_stats` does not leave out. -/
structure StatsReport.Valid (report : StatsReport) : Prop where
  nodup : (report.stats.map Prod.fst).Nodup
  bench : ∀ entry ∈ report.stats, isStatsBench entry.1 = true ∧ ∀ c ∈ entry.1, isSpace c = false
  value : ∀ entry ∈ report.stats, 1 / 1000 ≤ entry.2

/-! ### The loop over the lines -/

section
variable {metric bench value : Text} {line : Text} {lines before after : List Text}
  {stats : Text → Option Text}

/-- What a line says about a benchmark. -/
def lineEntry (metric line : Text) : Option (Text × Text) :=
  (benchOf line).bind fun bench => (valueOf metric line).map fun value => (bench, value)

theorem addStats_of_entry (h : lineEntry metric line = some (bench, value)) :
    addStats metric stats line = Function.update stats bench (some value) := by
  obtain ⟨b, hbench, h⟩ := Option.bind_eq_some_iff.mp h
  obtain ⟨v, hvalue, heq⟩ := Option.map_eq_some_iff.mp h
  obtain ⟨rfl, rfl⟩ := Prod.mk.inj heq
  rw [addStats, hbench, hvalue]

theorem addStats_of_none (h : lineEntry metric line = none) :
    addStats metric stats line = stats := by
  unfold addStats
  split
  next b v hbench hvalue =>
    rw [lineEntry, hbench, hvalue] at h
    cases h
  next => rfl

/-- A benchmark of which no line says anything keeps its value. -/
theorem foldl_addStats_of_notMem
    (h : ∀ line ∈ lines, ∀ value, lineEntry metric line ≠ some (bench, value)) :
    lines.foldl (addStats metric) stats bench = stats bench := by
  induction lines generalizing stats with
  | nil => rfl
  | cons line lines ih =>
    obtain ⟨hline, hlines⟩ := List.forall_mem_cons.mp h
    rw [List.foldl_cons, ih hlines]
    cases hentry : lineEntry metric line with
    | none => rw [addStats_of_none hentry]
    | some entry =>
      have hne : bench ≠ entry.1 := by
        rintro rfl
        exact hline entry.2 hentry
      rw [addStats_of_entry hentry, Function.update_of_ne hne]

/-- The last line about a benchmark counts. -/
theorem foldl_addStats_last (h : lineEntry metric line = some (bench, value))
    (hafter : ∀ line ∈ after, ∀ value, lineEntry metric line ≠ some (bench, value)) :
    (before ++ line :: after).foldl (addStats metric) stats bench = some value := by
  rw [List.foldl_append, List.foldl_cons, foldl_addStats_of_notMem hafter, addStats_of_entry h,
    Function.update_self]

theorem foldl_addStats_ne_none (hline : line ∈ lines)
    (h : lineEntry metric line = some (bench, value)) :
    lines.foldl (addStats metric) stats bench ≠ none := by
  induction lines generalizing stats value line with
  | nil => cases hline
  | cons first lines ih =>
    by_cases hlater : ∃ l ∈ lines, ∃ v, lineEntry metric l = some (bench, v)
    · obtain ⟨l, hl, v, hv⟩ := hlater
      exact ih hl hv
    · have hnone : ∀ l ∈ lines, ∀ v, lineEntry metric l ≠ some (bench, v) :=
        fun l hl v hv => hlater ⟨l, hl, v, hv⟩
      rcases List.mem_cons.mp hline with rfl | hline
      · rw [← List.nil_append (line :: lines), foldl_addStats_last h hnone]
        exact Option.some_ne_none value
      · exact absurd h (hnone line hline value)

end

/-! ### The lines that are written -/

section
variable {metric name bench : Text} {entry : Text × ℚ} {report : StatsReport} {t : Text}

theorem benchLine_eq (metric : Text) (entry : Text × ℚ) : benchLine metric entry =
    entry.1 ++ ' ' :: (List.replicate (40 - entry.1.length) ' ' ++
      (metric ++ ' ' :: (formatValue entry.2 ++ [' ']))) := by
  have hspaces : ∀ (k : ℕ) (t : Text),
      List.replicate k ' ' ++ ' ' :: t = ' ' :: (List.replicate k ' ' ++ t) := by
    intro k t
    induction k with
    | zero => rfl
    | succ k ih => rw [List.replicate_succ, List.cons_append, ih, List.cons_append]
  rw [benchLine, List.rightpad, List.append_assoc, hspaces]

/-- The digits of a value, with a dot between them. -/
theorem formatValue_eq (value : ℚ) : ∃ int frac, formatValue value = int ++ '.' :: frac ∧
    int ≠ [] ∧ frac ≠ [] ∧ (∀ c ∈ int, c.isDigit = true) ∧ ∀ c ∈ frac, c.isDigit = true := by
  refine ⟨_, _, rfl, Nat.toDigits_ne_nil, List.cons_ne_nil _ _, fun c hc =>
    Nat.isDigit_of_mem_toDigits (by decide) (by decide) hc, ?_⟩
  simp only [List.forall_mem_cons, Nat.isDigit_digitChar, decide_eq_true_eq]
  exact ⟨by omega, by omega, by omega, by simp⟩

theorem takeWhile_digits {digits : Text} (h : ∀ c ∈ digits, c.isDigit = true) {c : Char}
    (hc : c.isDigit = false) (rest : Text) :
    (digits ++ c :: rest).takeWhile Char.isDigit = digits := by
  rw [List.takeWhile_append_of_pos h, List.takeWhile_cons_of_neg (by simp [hc]), List.append_nil]

theorem decimal_formatValue (value : ℚ) (rest : Text) :
    decimal (formatValue value ++ ' ' :: rest) = some (formatValue value) := by
  obtain ⟨int, frac, heq, hint, hfrac, hintDigits, hfracDigits⟩ := formatValue_eq value
  have htake : (int ++ '.' :: (frac ++ ' ' :: rest)).takeWhile Char.isDigit = int :=
    takeWhile_digits hintDigits rfl _
  have htake' : (frac ++ ' ' :: rest).takeWhile Char.isDigit = frac :=
    takeWhile_digits hfracDigits rfl _
  rw [heq, List.append_assoc, List.cons_append, decimal, htake, List.drop_left]
  simp only [htake', hint, hfrac, or_self, if_false]

theorem isSpace_of_isDigit {c : Char} (h : c.isDigit = true) : isSpace c = false := by
  have hne : ∀ d : Char, d.isDigit = false → c ≠ d := by
    rintro d hd rfl
    rw [h] at hd
    cases hd
  simp [isSpace, hne]

theorem valueOf_cons (metric : Text) (c : Char) (t : Text) :
    valueOf metric (c :: t) = (metricAt metric (c :: t)).or (valueOf metric t) := by
  rw [valueOf, List.tails, List.findSome?_cons]
  cases metricAt metric (c :: t) <;> rfl

/-- No match begins in a word. -/
theorem valueOf_word (h : ∀ c ∈ bench, isSpace c = false) (t : Text) :
    valueOf metric (bench ++ t) = valueOf metric t := by
  induction bench with
  | nil => rfl
  | cons c bench ih =>
    obtain ⟨hc, hbench⟩ := List.forall_mem_cons.mp h
    rw [List.cons_append, valueOf_cons, metricAt, hc, ih hbench]
    rfl

/-- The match begins with the last blank before the metric. -/
theorem valueOf_metric (hne : metric ≠ []) (hmetric : ∀ c ∈ metric, c.isAlpha = true) (k : ℕ)
    (value : ℚ) (rest : Text) :
    valueOf metric (' ' :: (List.replicate k ' ' ++
      (metric ++ ' ' :: (formatValue value ++ ' ' :: rest)))) = some (formatValue value) := by
  obtain ⟨m, ms, rfl⟩ := List.exists_cons_of_ne_nil hne
  have hm : m ≠ ' ' := by
    rintro rfl
    cases hmetric ' ' List.mem_cons_self
  induction k with
  | zero =>
    obtain ⟨int, frac, heq, hint, -, hintDigits, -⟩ := formatValue_eq value
    obtain ⟨d, ds, rfl⟩ := List.exists_cons_of_ne_nil hint
    have hd : isSpace d = false := isSpace_of_isDigit (hintDigits d List.mem_cons_self)
    have hdrop : (formatValue value ++ ' ' :: rest).dropWhile isSpace =
        formatValue value ++ ' ' :: rest := by
      rw [heq, List.cons_append, List.cons_append, List.dropWhile_cons_of_neg (by simp [hd])]
    have hstarts : (m :: ms).isPrefixOf
        (m :: ms ++ ' ' :: (formatValue value ++ ' ' :: rest)) = true :=
      List.isPrefixOf_iff_prefix.mpr (List.prefix_append ..)
    have hspace : isSpace ' ' = true := rfl
    rw [List.replicate_zero, List.nil_append, valueOf_cons, metricAt, hspace, hstarts]
    simp only [Bool.true_and, if_true, List.drop_left, List.takeWhile_cons, hspace,
      List.isEmpty_cons, Bool.false_eq_true, if_false, List.dropWhile_cons, hdrop,
      decimal_formatValue]
    rfl
  | succ k ih =>
    have hstarts : ∀ t, (m :: ms).isPrefixOf (' ' :: t) = false := by
      intro t
      rw [List.isPrefixOf, beq_false_of_ne hm, Bool.false_and]
    rw [List.replicate_succ, List.cons_append, valueOf_cons, metricAt, hstarts, Bool.and_false,
      if_neg Bool.false_ne_true, Option.none_or]
    exact ih

/-- What is written about a benchmark is read. -/
theorem lineEntry_benchLine (hne : metric ≠ []) (hmetric : ∀ c ∈ metric, c.isAlpha = true)
    (hstats : isStatsBench entry.1 = true) (hbench : ∀ c ∈ entry.1, isSpace c = false) :
    lineEntry metric (benchLine metric entry ++ ['\n']) =
      some (entry.1, formatValue entry.2) := by
  have hline : benchLine metric entry ++ ['\n'] =
      entry.1 ++ ' ' :: (List.replicate (40 - entry.1.length) ' ' ++
        (metric ++ ' ' :: (formatValue entry.2 ++ ' ' :: ['\n']))) := by
    rw [benchLine_eq]
    simp
  have hspace : ∀ c ∈ entry.1, decide (c ≠ ' ') = true := by
    intro c hc
    refine decide_eq_true ?_
    rintro rfl
    cases hbench ' ' hc
  have htake : ∀ t, (entry.1 ++ ' ' :: t).takeWhile (· ≠ ' ') = entry.1 := by
    intro t
    rw [List.takeWhile_append_of_pos hspace, List.takeWhile_cons_of_neg (by simp),
      List.append_nil]
  have hstarts : ∀ t, isStatsBench (entry.1 ++ t) = true := by
    intro t
    obtain ⟨p, hp, hpre⟩ := List.any_eq_true.mp hstats
    refine List.any_eq_true.mpr ⟨p, hp, List.isPrefixOf_iff_prefix.mpr ?_⟩
    exact (List.isPrefixOf_iff_prefix.mp hpre).trans (List.prefix_append ..)
  rw [lineEntry, hline, benchOf, if_pos (hstarts _), htake, valueOf_word hbench,
    valueOf_metric hne hmetric]
  rfl

theorem lineEntry_csnLine (metric name : Text) (csn : ℕ) :
    lineEntry metric (csnLine name csn ++ ['\n']) = none := rfl

end

/-! ### The last section -/

/-- The reports of one package. -/
structure StatsReports (metric name : Text) (reports : List StatsReport) : Prop where
  metric_ne : metric ≠ []
  metric_alpha : ∀ c ∈ metric, c.isAlpha = true
  name : '\n' ∉ name
  valid : ∀ report ∈ reports, report.Valid
  increasing : (reports.map StatsReport.csn).Pairwise (· < ·)

/-- The lines of a history as they are read. -/
def historyLines (metric name : Text) (reports : List StatsReport) : List Text :=
  (reports.flatMap (sectionLines metric name)).map (· ++ ['\n'])

/-- The lines about the benchmarks of a report. -/
def StatsReport.lines (metric : Text) (report : StatsReport) : List Text :=
  report.written.map fun entry => benchLine metric entry ++ ['\n']

section
variable {metric name : Text} {reports front : List StatsReport} {report last : StatsReport}
  {entry : Text × ℚ} {post : List Text}

theorem StatsReport.Valid.mem_written (h : report.Valid) :
    entry ∈ report.written ↔ entry ∈ report.stats := by
  rw [written, List.mem_filter, List.mem_insertionSort]
  refine and_iff_left_of_imp fun hentry => ?_
  have hvalue : 0 < entry.2 := lt_of_lt_of_le (by norm_num) (h.value entry hentry)
  rw [(h.bench entry hentry).1, Bool.true_and]
  exact decide_eq_true hvalue

theorem StatsReport.Valid.nodup_written (h : report.Valid) :
    (report.written.map Prod.fst).Nodup := by
  have hsorted : ((report.stats.insertionSort fun a b => a.1 ≤ b.1).map Prod.fst).Nodup :=
    ((List.perm_insertionSort _ report.stats).map Prod.fst).nodup_iff.mpr h.nodup
  exact hsorted.sublist (List.filter_sublist.map Prod.fst)

theorem StatsReport.Valid.values_eq_some (h : report.Valid) (hentry : entry ∈ report.stats) :
    report.values entry.1 = some (formatValue entry.2) := by
  obtain ⟨before, after, hsplit⟩ := List.append_of_mem hentry
  have hnodup := h.nodup
  rw [hsplit, List.map_append, List.map_cons, List.nodup_append] at hnodup
  have hlookup : report.stats.lookup entry.1 = some entry.2 := by
    refine List.lookup_eq_some_iff.mpr ⟨before, after, hsplit, fun p hp => ?_⟩
    have hne := hnodup.2.2 p.1 (List.mem_map_of_mem hp) entry.1 List.mem_cons_self
    simpa using Ne.symm hne
  rw [values, hlookup, Option.map_some]

theorem StatsReport.values_eq_none {bench : Text} (h : bench ∉ report.stats.map Prod.fst) :
    report.values bench = none := by
  have hlookup : report.stats.lookup bench = none := by
    refine List.lookup_eq_none_iff.mpr fun p hp => ?_
    have hne : bench ≠ p.1 := by
      rintro rfl
      exact h (List.mem_map_of_mem hp)
    simpa using hne
  rw [values, hlookup, Option.map_none]

/-- The section is read right if all of its lines are read, and no lines about benchmarks that it
does not have. -/
theorem foldl_addStats_eq_values_iff (h : StatsReports metric name reports) (hlast : last ∈ reports)
    {pre : List Text} (hpost : post <:+ pre ++ last.lines metric) :
    post.foldl (addStats metric) (fun _ => none) = last.values ↔
      last.lines metric <:+ post ∧ ∀ line ∈ post, ∀ bench value,
        lineEntry metric line = some (bench, value) → bench ∈ last.stats.map Prod.fst := by
  have hvalid := h.valid last hlast
  have hentry : ∀ entry ∈ last.written, lineEntry metric (benchLine metric entry ++ ['\n']) =
      some (entry.1, formatValue entry.2) := by
    intro entry hentry
    obtain ⟨hstats, hspace⟩ := hvalid.bench entry (hvalid.mem_written.mp hentry)
    exact lineEntry_benchLine h.metric_ne h.metric_alpha hstats hspace
  -- A line about another entry is about another benchmark.
  have hother : ∀ {before entry after}, last.written = before ++ entry :: after →
      ∀ line ∈ after.map fun e => benchLine metric e ++ ['\n'], ∀ value,
        lineEntry metric line ≠ some (entry.1, value) := by
    intro before entry after hsplit line hline value heq
    obtain ⟨e, he, rfl⟩ := List.mem_map.mp hline
    have hnodup := hvalid.nodup_written
    rw [hsplit, List.map_append, List.map_cons, List.nodup_append] at hnodup
    rw [hentry e (by rw [hsplit]; simp [he])] at heq
    have hname : e.1 = entry.1 := (Prod.mk.inj (Option.some.inj heq)).1
    exact (List.nodup_cons.mp hnodup.2.1).1 (hname ▸ List.mem_map_of_mem he)
  constructor
  · intro heq
    refine ⟨?_, fun line hline bench value hbench => ?_⟩
    · rcases List.suffix_or_suffix_of_suffix hpost (List.suffix_append pre _) with hsuffix | hsuffix
      · obtain ⟨skipped, hskipped⟩ := hsuffix
        cases skipped with
        | nil => exact hskipped ▸ List.suffix_rfl
        | cons line skipped =>
          -- The benchmark of a line that is skipped is missing.
          obtain ⟨entry, after, hwritten, rfl, hafter⟩ := List.map_eq_cons_iff.mp hskipped.symm
          have hsplit : last.written = [] ++ entry :: after := hwritten
          have hnone := @foldl_addStats_of_notMem metric entry.1 post (fun _ => none)
            fun l hl value => hother hsplit l (hafter ▸ List.mem_append_right skipped hl) value
          rw [heq, hvalid.values_eq_some (hvalid.mem_written.mp (by simp [hwritten]))] at hnone
          cases hnone
      · exact hsuffix
    · by_contra hnot
      exact foldl_addStats_ne_none hline hbench
        ((congrFun heq bench).trans (StatsReport.values_eq_none hnot))
  · rintro ⟨⟨skipped, rfl⟩, hforeign⟩
    funext bench
    by_cases hbench : bench ∈ last.stats.map Prod.fst
    · obtain ⟨entry, hmem, rfl⟩ := List.mem_map.mp hbench
      obtain ⟨before, after, hsplit⟩ := List.append_of_mem (hvalid.mem_written.mpr hmem)
      have hlines : skipped ++ last.lines metric =
          (skipped ++ before.map fun e => benchLine metric e ++ ['\n']) ++
            (benchLine metric entry ++ ['\n']) ::
              after.map fun e => benchLine metric e ++ ['\n'] := by
        rw [StatsReport.lines, hsplit, List.map_append, List.map_cons, List.append_assoc]
      rw [hvalid.values_eq_some hmem, hlines]
      exact foldl_addStats_last (hentry entry (by simp [hsplit])) (hother hsplit)
    · rw [StatsReport.values_eq_none hbench]
      exact foldl_addStats_of_notMem fun line hline value hvalue =>
        hbench (hforeign line hline bench value hvalue)

theorem history_eq (metric name : Text) (reports : List StatsReport) :
    history metric name reports = unlines (reports.flatMap (sectionLines metric name)) := by
  have hfold : ∀ file : Text, reports.foldl (writeStats metric name) file =
      file ++ unlines (reports.flatMap (sectionLines metric name)) := by
    induction reports with
    | nil => exact fun file => (List.append_nil file).symm
    | cons report reports ih =>
      intro file
      rw [List.foldl_cons, ih, writeStats, List.flatMap_cons, unlines, unlines, unlines,
        List.flatMap_append, List.append_assoc]
  exact hfold []

theorem newline_notMem_csnLine (hname : '\n' ∉ name) (csn : ℕ) : '\n' ∉ csnLine name csn := by
  have hdigits : '\n' ∉ Nat.toDigits 10 csn := by
    intro hmem
    have hdigit : '\n'.isDigit = true :=
      Nat.isDigit_of_mem_toDigits (by decide) (by decide) hmem
    exact absurd hdigit (by decide)
  intro h
  rcases List.mem_append.mp h with h | h
  · rcases List.mem_append.mp h with h | h
    · exact absurd h (by decide)
    · exact hname h
  · rcases List.mem_cons.mp h with h | h
    · exact absurd h (by decide)
    · exact hdigits h

theorem newline_notMem_benchLine (hmetric : ∀ c ∈ metric, c.isAlpha = true)
    (hbench : ∀ c ∈ entry.1, isSpace c = false) : '\n' ∉ benchLine metric entry := by
  obtain ⟨int, frac, heq, -, -, hint, hfrac⟩ := formatValue_eq entry.2
  have hbench' : '\n' ∉ entry.1 := fun hmem => by cases hbench '\n' hmem
  have hmetric' : '\n' ∉ metric := fun hmem => by cases hmetric '\n' hmem
  have hint' : '\n' ∉ int := fun hmem => by cases hint '\n' hmem
  have hfrac' : '\n' ∉ frac := fun hmem => by cases hfrac '\n' hmem
  simp [benchLine_eq, hbench', hmetric', heq, hint', hfrac']

/-- The lines of the history are read as they were written. -/
theorem rawLines_history (h : StatsReports metric name reports) :
    Inifile.rawLines (history metric name reports) = historyLines metric name reports := by
  rw [history_eq, Inifile.rawLines_unlines]
  · rfl
  intro line hline
  obtain ⟨report, hreport, hline⟩ := List.mem_flatMap.mp hline
  have hvalid := h.valid report hreport
  rw [sectionLines, List.mem_cons] at hline
  rcases hline with hheader | hline
  · rw [hheader]
    exact newline_notMem_csnLine h.name report.csn
  · obtain ⟨entry, hentry, rfl⟩ := List.mem_map.mp hline
    obtain ⟨-, hspace⟩ := hvalid.bench entry (hvalid.mem_written.mp hentry)
    exact newline_notMem_benchLine h.metric_alpha hspace

end

end Awb.Package
