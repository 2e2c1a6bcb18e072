import Awb.Package.StatsHistory

/-! Which histories of statistics are read back right: the last section has to be found by the
serial number, and a number in the name of the package is found first. -/

namespace Awb.Package

section
variable {metric name sn : Text} {entry : Text × ℚ} {last : StatsReport} {m n csn : ℕ}

/-! ### Numbers -/

theorem le_ofDigitChars (digits : Text) (init : ℕ) : init ≤ Nat.ofDigitChars 10 digits init := by
  induction digits generalizing init with
  | nil => rw [Nat.ofDigitChars_nil]
  | cons c digits ih =>
    rw [Nat.ofDigitChars_cons]
    exact le_trans (by omega) (ih _)

theorem le_of_toDigits_front (h : Nat.toDigits 10 m <+: Nat.toDigits 10 n) : m ≤ n := by
  obtain ⟨rest, hrest⟩ := h
  rw [← Nat.ofDigitChars_ten_toDigits (n := m), ← Nat.ofDigitChars_ten_toDigits (n := n), ← hrest,
    Nat.ofDigitChars_append]
  exact le_ofDigitChars rest _

theorem isDigit_of_mem_toDigits {c : Char} (hc : c ∈ Nat.toDigits 10 n) : c.isDigit = true :=
  Nat.isDigit_of_mem_toDigits (by decide) (by decide) hc

/-! ### Headers -/

/-- What is behind the first characters of a header. -/
def behindHeader (name : Text) (csn : ℕ) : Text := name ++ '-' :: (Nat.toDigits 10 csn ++ ['\n'])

theorem csnLine_eq (name : Text) (csn : ℕ) :
    csnLine name csn ++ ['\n'] = "== CSN CSN-".toList ++ behindHeader name csn := by
  unfold csnLine behindHeader
  generalize "== CSN CSN-".toList = front
  simp only [List.append_assoc, List.cons_append]

theorem hasCsn_csnLine (name : Text) (csn : ℕ) : hasCsn (csnLine name csn ++ ['\n']) = true := by
  have hsplit : "== CSN CSN-".toList = "== ".toList ++ "CSN".toList ++ " CSN-".toList := by decide
  rw [hasCsn, decide_eq_true_eq, csnLine_eq, hsplit, List.append_assoc]
  exact ⟨_, _, rfl⟩

theorem firstNumber_of_digits {digits rest : Text} (hne : digits ≠ [])
    (hdigits : ∀ c ∈ digits, c.isDigit = true) {c : Char} (hc : c.isDigit = false)
    {front : Text} (hfront : ∀ c ∈ front, c.isDigit = false) :
    firstNumber (front ++ (digits ++ c :: rest)) = digits := by
  obtain ⟨d, ds, rfl⟩ := List.exists_cons_of_ne_nil hne
  have hd : d.isDigit = true := hdigits d List.mem_cons_self
  rw [firstNumber, List.dropWhile_append_of_pos (by simpa using hfront), List.cons_append,
    List.dropWhile_cons_of_neg (by simp [hd]), ← List.cons_append, takeWhile_digits hdigits hc]

theorem firstNumber_ne_nil {text : Text} (h : ∃ c ∈ text, c.isDigit = true) :
    firstNumber text ≠ [] := by
  obtain ⟨c, hc, hdigit⟩ := h
  have hne : text.dropWhile (fun c : Char => !c.isDigit) ≠ [] := by
    intro hnil
    have hall := List.dropWhile_eq_nil_iff.mp hnil c hc
    rw [hdigit] at hall
    cases hall
  obtain ⟨d, ds, hds⟩ := List.exists_cons_of_ne_nil hne
  have hd : d.isDigit = true := by
    have hnot := List.head_dropWhile_not (fun c : Char => !c.isDigit) hne
    simpa [hds] using hnot
  rw [firstNumber, hds, List.takeWhile_cons_of_pos hd]
  exact List.cons_ne_nil _ _

theorem firstNumber_behindHeader_ne_nil (name : Text) (csn : ℕ) :
    firstNumber (behindHeader name csn) ≠ [] := by
  obtain ⟨d, ds, hds⟩ := List.exists_cons_of_ne_nil (Nat.toDigits_ne_nil (b := 10) (n := csn))
  refine firstNumber_ne_nil ⟨d, ?_, isDigit_of_mem_toDigits (hds ▸ List.mem_cons_self)⟩
  rw [behindHeader, hds]
  simp

/-- The number of a header is the first one in it. -/
theorem csnNumber_csnLine (name : Text) (csn : ℕ) :
    csnNumber (csnLine name csn ++ ['\n']) = some (firstNumber (behindHeader name csn)) := by
  have hbehind : behindCsn (csnLine name csn ++ ['\n']) =
      some (" CSN-".toList ++ behindHeader name csn) := by
    rw [csnLine_eq]
    rfl
  have hnumber : firstNumber (" CSN-".toList ++ behindHeader name csn) =
      firstNumber (behindHeader name csn) := rfl
  obtain ⟨c, cs, hcs⟩ := List.exists_cons_of_ne_nil (firstNumber_behindHeader_ne_nil name csn)
  rw [csnNumber, hbehind, Option.map_some, hnumber, hcs]

/-- The number that a header without other digits is found by. -/
theorem followsCsn_csnLine_of_clean (hname : ∀ c ∈ name, c.isDigit = false)
    (h : followsCsn sn (csnLine name csn ++ ['\n']) = true) :
    sn <+: Nat.toDigits 10 csn ++ ['\n'] := by
  obtain ⟨t, ht, hmatch⟩ := List.any_eq_true.mp h
  rw [Bool.and_eq_true] at hmatch
  obtain ⟨rest, rfl⟩ := List.isPrefixOf_iff_prefix.mp hmatch.1
  have hsn := List.isPrefixOf_iff_prefix.mp hmatch.2
  have hdrop : ("== CSN".toList ++ rest).drop 6 = rest := rfl
  rw [hdrop] at hsn
  have hmarker : ∀ c ∈ "== CSN".toList, (!c.isDigit) = true := List.all_eq_true.mp (by decide)
  have hsuffix : "== CSN".toList ++ rest <:+
      ("== CSN CSN-".toList ++ name ++ ['-']) ++ (Nat.toDigits 10 csn ++ ['\n']) := by
    have hline : csnLine name csn ++ ['\n'] =
        ("== CSN CSN-".toList ++ name ++ ['-']) ++ (Nat.toDigits 10 csn ++ ['\n']) := by
      rw [csnLine_eq, behindHeader]
      simp only [List.append_assoc, List.singleton_append]
    exact hline ▸ (List.mem_tails ..).mp ht
  rcases List.suffix_or_suffix_of_suffix hsuffix (List.suffix_append _ _) with hdigits | hdigits
  · -- There is no `=` behind the name.
    have hmem := hdigits.subset (List.mem_append_left rest (by decide : '=' ∈ "== CSN".toList))
    rcases List.mem_append.mp hmem with hmem | hmem
    · cases isDigit_of_mem_toDigits hmem
    · cases List.mem_singleton.mp hmem
  · obtain ⟨front, hfront⟩ := hdigits
    obtain ⟨before, hbefore⟩ := hsuffix
    rw [← hfront, ← List.append_assoc] at hbefore
    have hclean : ∀ c ∈ front, (!c.isDigit) = true := by
      intro c hc
      have hmem : c ∈ "== CSN CSN-".toList ++ name ++ ['-'] :=
        List.append_cancel_right hbefore ▸ List.mem_append_right before hc
      rcases List.mem_append.mp hmem with hmem | hmem
      · rcases List.mem_append.mp hmem with hmem | hmem
        · have hmarker : "== CSN CSN-".toList.all (fun c => !c.isDigit) = true := by decide
          exact List.all_eq_true.mp hmarker c hmem
        · rw [hname c hmem]
          rfl
      · obtain rfl := List.mem_singleton.mp hmem
        rfl
    obtain ⟨d, ds, hds⟩ := List.exists_cons_of_ne_nil (Nat.toDigits_ne_nil (b := 10) (n := csn))
    have hd : d.isDigit = true := isDigit_of_mem_toDigits (hds ▸ List.mem_cons_self)
    have hnumber : rest.dropWhile (fun c => !c.isDigit) = Nat.toDigits 10 csn ++ ['\n'] := by
      rw [← List.dropWhile_append_of_pos hmarker, ← hfront, List.dropWhile_append_of_pos hclean,
        hds, List.cons_append, List.dropWhile_cons_of_neg (by simp [hd])]
    exact hnumber ▸ hsn

end

/-! ### Lines about benchmarks -/

section
variable {metric sn line : Text} {entry : Text × ℚ}

theorem benchLine_newline (metric : Text) (entry : Text × ℚ) : benchLine metric entry ++ ['\n'] =
    entry.1 ++ ' ' :: (List.replicate (40 - entry.1.length) ' ' ++
      (metric ++ ' ' :: (formatValue entry.2 ++ ' ' :: ['\n']))) := by
  rw [benchLine_eq]
  simp

theorem C_notMem_formatValue (value : ℚ) : 'C' ∉ formatValue value ++ ' ' :: ['\n'] := by
  obtain ⟨int, frac, heq, -, -, hint, hfrac⟩ := formatValue_eq value
  have hint' : 'C' ∉ int := fun hmem => by cases hint 'C' hmem
  have hfrac' : 'C' ∉ frac := fun hmem => by cases hfrac 'C' hmem
  simp [heq, hint', hfrac']

/-- `CSN` in a line stands in the benchmark or in the metric. -/
theorem hasCsn_benchLine : hasCsn (benchLine metric entry ++ ['\n']) = true ↔
    "CSN".toList <:+: entry.1 ∨ "CSN".toList <:+: metric := by
  have hblank : ' ' ∉ "CSN".toList := by decide
  have hspaces : ∀ (k : ℕ) (t : Text),
      "CSN".toList <:+: List.replicate k ' ' ++ t ↔ "CSN".toList <:+: t := by
    intro k t
    induction k with
    | zero => rfl
    | succ k ih =>
      rw [List.replicate_succ, List.cons_append, ← List.nil_append (' ' :: _),
        Splitting.infix_append_sep hblank, ih]
      exact or_iff_right (by decide)
  have hvalue : ¬ "CSN".toList <:+: formatValue entry.2 ++ ' ' :: ['\n'] := fun h =>
    C_notMem_formatValue entry.2 (h.subset (by decide))
  rw [hasCsn, decide_eq_true_eq, benchLine_newline, Splitting.infix_append_sep hblank, hspaces,
    Splitting.infix_append_sep hblank, or_iff_left hvalue]

/-- A line that looks like a header is about a metric that begins with `CSN`. -/
theorem csn_prefix_metric (hbench : ' ' ∉ entry.1) (hmetric : ' ' ∉ metric)
    (h : "== CSN".toList <:+: benchLine metric entry ++ ['\n']) : "CSN".toList <+: metric := by
  have hblank : ' ' ∉ "CSN".toList := by decide
  have hvalue : ∀ w : Text, 'C' ∈ w → ¬ w <:+: formatValue entry.2 ++ ' ' :: ['\n'] :=
    fun w hw h => C_notMem_formatValue entry.2 (h.subset hw)
  have hspaces : ∀ k : ℕ, ∀ t, t = List.replicate k ' ' ++
      (metric ++ ' ' :: (formatValue entry.2 ++ ' ' :: ['\n'])) →
      "CSN".toList <+: t ∨ ' ' :: "CSN".toList <:+: t → "CSN".toList <+: metric := by
    intro k
    induction k with
    | zero =>
      rintro t rfl ht
      rw [List.replicate_zero, List.nil_append, Splitting.prefix_append_sep hblank] at ht
      rcases ht with ht | ht
      · exact ht
      · rcases Splitting.infix_of_cons_sep hmetric ht with ht | ht
        · exact absurd ht.isInfix (hvalue _ (by decide))
        · exact absurd ht (hvalue _ (by decide))
    | succ k ih =>
      rintro t rfl ht
      rw [List.replicate_succ, List.cons_append] at ht
      rcases ht with ht | ht
      · exact absurd (List.cons_prefix_cons.mp ht).1 (by decide)
      · exact ih _ rfl (Splitting.infix_of_cons_sep (List.not_mem_nil) ht)
  have hcsn : ' ' :: "CSN".toList <:+: benchLine metric entry ++ ['\n'] :=
    List.IsInfix.trans ⟨"==".toList, [], by decide⟩ h
  rw [benchLine_newline] at hcsn
  exact hspaces _ _ rfl (Splitting.infix_of_cons_sep hbench hcsn)

theorem equals_infix_of_csnNumber (h : csnNumber line = some sn) : "== CSN".toList <:+: line := by
  cases hbehind : behindCsn line with
  | none =>
    rw [csnNumber, hbehind] at h
    cases h
  | some rest =>
    obtain ⟨t, ht, -⟩ := Option.map_eq_some_iff.mp hbehind
    have hstarts := List.isPrefixOf_iff_prefix.mp (List.find?_some ht)
    exact hstarts.isInfix.trans ((List.mem_tails ..).mp (List.mem_of_find?_eq_some ht)).isInfix

theorem equals_infix_of_followsCsn (h : followsCsn sn line = true) : "== CSN".toList <:+: line := by
  obtain ⟨t, ht, hmatch⟩ := List.any_eq_true.mp h
  rw [Bool.and_eq_true] at hmatch
  exact (List.isPrefixOf_iff_prefix.mp hmatch.1).isInfix.trans ((List.mem_tails ..).mp ht).isInfix

end

/-! ### Finding the section -/

/-- The last line with `CSN` is captured by a number that is found in it. -/
theorem followsCsn_of_csnNumber {line sn : Text} (h : csnNumber line = some sn) :
    followsCsn sn line = true := by
  cases hbehind : behindCsn line with
  | none =>
    rw [csnNumber, hbehind] at h
    cases h
  | some rest =>
    obtain ⟨t, ht, rfl⟩ := Option.map_eq_some_iff.mp hbehind
    have hsn : firstNumber (t.drop 6) = sn := by
      rw [csnNumber, hbehind, Option.map_some] at h
      split at h
      next c cs heq =>
        rw [← Option.some.inj h]
        exact Option.some.inj heq
      next => cases h
    refine List.any_eq_true.mpr ⟨t, List.mem_of_find?_eq_some ht, ?_⟩
    rw [Bool.and_eq_true]
    refine ⟨List.find?_some ht, List.isPrefixOf_iff_prefix.mpr ?_⟩
    rw [← hsn]
    exact List.takeWhile_prefix _

section
variable {metric name sn line : Text} {front reports : List StatsReport}
  {report last : StatsReport} {before after : List Text}

theorem readStats_of_split (h : StatsReports metric name reports)
    (hsn : highSn (historyLines metric name reports) = some sn)
    (hlines : historyLines metric name reports = before ++ line :: after)
    (hbefore : ∀ l ∈ before, followsCsn sn l = false) (hline : followsCsn sn line = true) :
    readStats metric (history metric name reports) =
      after.foldl (addStats metric) fun _ => none := by
  have hdrop : ((historyLines metric name reports).dropWhile fun l => !followsCsn sn l) =
      line :: after := by
    rw [hlines, List.dropWhile_append_of_pos (by simpa using hbefore),
      List.dropWhile_cons_of_neg (by simp [hline])]
  rw [readStats, rawLines_history h]
  simp only [hsn, hdrop, List.drop_one, List.tail_cons]

theorem readStats_of_none (h : StatsReports metric name reports)
    (hsn : highSn (historyLines metric name reports) = none) :
    readStats metric (history metric name reports) = fun _ => none := by
  rw [readStats, rawLines_history h]
  simp only [hsn]

theorem historyLines_append (metric name : Text) (front : List StatsReport) (last : StatsReport) :
    historyLines metric name (front ++ [last]) =
      historyLines metric name front ++
        (csnLine name last.csn ++ ['\n']) :: last.lines metric := by
  rw [historyLines, historyLines, List.flatMap_append, List.map_append, List.flatMap_singleton,
    sectionLines, List.map_cons, List.map_map, StatsReport.lines]
  rfl

theorem mem_historyLines (h : StatsReports metric name reports) :
    line ∈ historyLines metric name reports ↔
      ∃ report ∈ reports, line = csnLine name report.csn ++ ['\n'] ∨
        ∃ entry ∈ report.stats, line = benchLine metric entry ++ ['\n'] := by
  simp only [historyLines, List.mem_map, List.mem_flatMap, sectionLines, List.mem_cons]
  constructor
  · rintro ⟨l, ⟨report, hreport, rfl | ⟨entry, hentry, rfl⟩⟩, rfl⟩
    · exact ⟨report, hreport, Or.inl rfl⟩
    · exact ⟨report, hreport, Or.inr ⟨entry, (h.valid report hreport).mem_written.mp hentry, rfl⟩⟩
  · rintro ⟨report, hreport, rfl | ⟨entry, hentry, rfl⟩⟩
    · exact ⟨_, ⟨report, hreport, Or.inl rfl⟩, rfl⟩
    · exact ⟨_, ⟨report, hreport, Or.inr ⟨entry,
        (h.valid report hreport).mem_written.mpr hentry, rfl⟩⟩, rfl⟩

/-- The benchmarks of a list of lines. -/
def BenchesIn (metric : Text) (lines : List Text) (report : StatsReport) : Prop :=
  ∀ line ∈ lines, ∀ bench value, lineEntry metric line = some (bench, value) →
    bench ∈ report.stats.map Prod.fst

/-- Reading from some line on is right if all of the last section is read and nothing about other
benchmarks. -/
theorem readStats_eq_values_iff_of_split (h : StatsReports metric name (front ++ [last]))
    (hsn : highSn (historyLines metric name (front ++ [last])) = some sn)
    (hlines : historyLines metric name (front ++ [last]) = before ++ line :: after)
    (hbefore : ∀ l ∈ before, followsCsn sn l = false) (hline : followsCsn sn line = true) :
    readStats metric (history metric name (front ++ [last])) = last.values ↔
      last.lines metric <:+ after ∧ BenchesIn metric after last := by
  have hsuffix : after <:+ (historyLines metric name front ++
      [csnLine name last.csn ++ ['\n']]) ++ last.lines metric := by
    rw [List.append_assoc, List.singleton_append, ← historyLines_append, hlines]
    exact ⟨before ++ [line], by simp⟩
  rw [readStats_of_split h hsn hlines hbefore hline]
  exact foldl_addStats_eq_values_iff h (by simp) hsuffix

theorem benchesIn_historyLines (h : StatsReports metric name reports) :
    BenchesIn metric (historyLines metric name reports) last ↔
      ∀ report ∈ reports, ∀ entry ∈ report.stats, entry.1 ∈ last.stats.map Prod.fst := by
  have hentry : ∀ report ∈ reports, ∀ entry ∈ report.stats,
      lineEntry metric (benchLine metric entry ++ ['\n']) =
        some (entry.1, formatValue entry.2) := by
    intro report hreport entry hentry
    obtain ⟨hstats, hspace⟩ := (h.valid report hreport).bench entry hentry
    exact lineEntry_benchLine h.metric_ne h.metric_alpha hstats hspace
  constructor
  · intro hin report hreport entry he
    exact hin _ ((mem_historyLines h).mpr ⟨report, hreport, Or.inr ⟨entry, he, rfl⟩⟩) _ _
      (hentry report hreport entry he)
  · intro hin line hline bench value hvalue
    obtain ⟨report, hreport, rfl | ⟨entry, he, rfl⟩⟩ := (mem_historyLines h).mp hline
    · rw [lineEntry_csnLine] at hvalue
      cases hvalue
    · rw [hentry report hreport entry he] at hvalue
      obtain ⟨rfl, -⟩ := Prod.mk.inj (Option.some.inj hvalue)
      exact hin report hreport entry he

/-! ### The condition -/

/-- If the metric has no `CSN` in its name: no benchmark of the last section has it, and the number
is found behind the name of the package, or else the first section is found and has nothing else. -/
def FoundByNumber (name : Text) (front : List StatsReport) (last : StatsReport) : Prop :=
  (∀ entry ∈ last.stats, ¬ "CSN".toList <:+: entry.1) ∧
    ((∀ c ∈ name, c.isDigit = false) ∨
      ∀ report ∈ front, ∀ entry ∈ report.stats, entry.1 ∈ last.stats.map Prod.fst)

/-- If the metric has `CSN` in its name, then the last line counts: it looks like a header, and the
lines from the first one that its number finds on are about the benchmarks of the last section. -/
def FoundByLastLine (metric name : Text) (front : List StatsReport) (last : StatsReport) : Prop :=
  let lines := historyLines metric name (front ++ [last])
  ∃ sn before line after, lines.getLast?.bind csnNumber = some sn ∧
    lines = before ++ line :: after ∧ (∀ l ∈ before, followsCsn sn l = false) ∧
    followsCsn sn line = true ∧ last.lines metric <:+ after ∧ BenchesIn metric after last

/-- When the last section is what is read. -/
def LastFound (metric name : Text) (front : List StatsReport) (last : StatsReport) : Prop :=
  if "CSN".toList <:+: metric then FoundByLastLine metric name front last
  else FoundByNumber name front last

/-! ### A metric without `CSN` -/

theorem takeWhile_append_stop {p : Char → Bool} {c : Char} (hc : p c = false) (a b : Text) :
    (a ++ c :: b).takeWhile p = a.takeWhile p := by
  induction a with
  | nil => rw [List.nil_append, List.takeWhile_cons_of_neg (by simp [hc]), List.takeWhile_nil]
  | cons d a ih =>
    rw [List.cons_append, List.takeWhile_cons, List.takeWhile_cons, ih]

/-- A number in the name of the package is the number of all its headers. -/
theorem firstNumber_behindHeader (hname : ∃ c ∈ name, c.isDigit = true) (m n : ℕ) :
    firstNumber (behindHeader name m) = firstNumber (behindHeader name n) := by
  rcases Splitting.clean_or_first Char.isDigit name with hclean | ⟨pre, d, rest, rfl, hpre, hd⟩
  · obtain ⟨c, hc, hdigit⟩ := hname
    rw [hclean c hc] at hdigit
    cases hdigit
  have hnumber : ∀ csn, firstNumber (behindHeader (pre ++ d :: rest) csn) =
      (d :: rest).takeWhile Char.isDigit := by
    intro csn
    rw [firstNumber, behindHeader, List.append_assoc,
      List.dropWhile_append_of_pos (by simpa using hpre), List.cons_append,
      List.dropWhile_cons_of_neg (by simp [hd]), ← List.cons_append]
    exact takeWhile_append_stop rfl _ _
  rw [hnumber m, hnumber n]

theorem firstNumber_behindHeader_of_clean (hname : ∀ c ∈ name, c.isDigit = false) (csn : ℕ) :
    firstNumber (behindHeader name csn) = Nat.toDigits 10 csn := by
  have hfront : ∀ c ∈ name ++ ['-'], c.isDigit = false := by
    intro c hc
    rcases List.mem_append.mp hc with hc | hc
    · exact hname c hc
    · obtain rfl := List.mem_singleton.mp hc
      rfl
  have hnewline : '\n'.isDigit = false := rfl
  rw [behindHeader, ← List.singleton_append, ← List.append_assoc]
  exact firstNumber_of_digits Nat.toDigits_ne_nil (fun c hc => isDigit_of_mem_toDigits hc)
    hnewline hfront

theorem blank_notMem (h : StatsReports metric name reports) (hreport : report ∈ reports)
    {entry : Text × ℚ} (hentry : entry ∈ report.stats) : ' ' ∉ entry.1 ∧ ' ' ∉ metric := by
  constructor
  · intro hmem
    cases ((h.valid report hreport).bench entry hentry).2 ' ' hmem
  · intro hmem
    cases h.metric_alpha ' ' hmem

/-- No line about a benchmark looks like a header. -/
theorem notMarker_benchLine (h : StatsReports metric name reports) (hreport : report ∈ reports)
    (hmetric : ¬ "CSN".toList <:+: metric) {entry : Text × ℚ} (hentry : entry ∈ report.stats) :
    ¬ "== CSN".toList <:+: benchLine metric entry ++ ['\n'] := by
  intro hmarker
  obtain ⟨hblank, hblank'⟩ := blank_notMem h hreport hentry
  exact hmetric (csn_prefix_metric hblank hblank' hmarker).isInfix

theorem highSn_of_clean (h : StatsReports metric name (front ++ [last]))
    (hmetric : ¬ "CSN".toList <:+: metric)
    (hlast : ∀ entry ∈ last.stats, ¬ "CSN".toList <:+: entry.1) :
    highSn (historyLines metric name (front ++ [last])) =
      some (firstNumber (behindHeader name last.csn)) := by
  have hnone : (last.lines metric).filter hasCsn = [] := by
    refine List.filter_eq_nil_iff.mpr fun line hline hcsn => ?_
    obtain ⟨entry, hentry, rfl⟩ := List.mem_map.mp hline
    have hstats := (h.valid last (by simp)).mem_written.mp hentry
    rcases hasCsn_benchLine.mp hcsn with hcsn | hcsn
    · exact hlast entry hstats hcsn
    · exact hmetric hcsn
  rw [highSn, historyLines_append, List.filter_append,
    List.filter_cons_of_pos (hasCsn_csnLine name last.csn), hnone, List.getLast?_concat,
    Option.bind_some, csnNumber_csnLine]

/-- A benchmark with `CSN` hides the header. -/
theorem highSn_of_marked (h : StatsReports metric name (front ++ [last]))
    (hmetric : ¬ "CSN".toList <:+: metric) {entry : Text × ℚ} (hentry : entry ∈ last.stats)
    (hcsn : "CSN".toList <:+: entry.1) :
    highSn (historyLines metric name (front ++ [last])) = none := by
  have hvalid := h.valid last (by simp)
  have hmem : benchLine metric entry ++ ['\n'] ∈ (last.lines metric).filter hasCsn :=
    List.mem_filter.mpr ⟨List.mem_map.mpr ⟨entry, hvalid.mem_written.mpr hentry, rfl⟩,
      hasCsn_benchLine.mpr (Or.inl hcsn)⟩
  obtain ⟨line, hline⟩ :=
    Option.isSome_iff_exists.mp (List.getLast?_isSome.mpr (List.ne_nil_of_mem hmem))
  have hlines : (historyLines metric name (front ++ [last])).filter hasCsn =
      ((historyLines metric name front).filter hasCsn ++ [csnLine name last.csn ++ ['\n']]) ++
        (last.lines metric).filter hasCsn := by
    rw [historyLines_append, List.filter_append,
      List.filter_cons_of_pos (hasCsn_csnLine name last.csn), List.append_assoc,
      List.singleton_append]
  obtain ⟨e, he, rfl⟩ := List.mem_map.mp (List.mem_of_mem_filter (List.mem_of_getLast? hline))
  rw [highSn, hlines, List.getLast?_append, hline, Option.some_or, Option.bind_some]
  refine Option.eq_none_iff_forall_ne_some.mpr fun sn hsn => ?_
  exact notMarker_benchLine h (by simp) hmetric (hvalid.mem_written.mp he)
    (equals_infix_of_csnNumber hsn)

theorem values_ne_none (h : StatsReports metric name reports) (hreport : report ∈ reports)
    {entry : Text × ℚ} (hentry : entry ∈ report.stats) : report.values ≠ fun _ => none := by
  intro hvalues
  have hsome := (h.valid report hreport).values_eq_some hentry
  rw [hvalues] at hsome
  cases hsome

theorem notFollows_of_clean (h : StatsReports metric name (front ++ [last]))
    (hmetric : ¬ "CSN".toList <:+: metric) (hname : ∀ c ∈ name, c.isDigit = false) :
    ∀ l ∈ historyLines metric name front, followsCsn (Nat.toDigits 10 last.csn) l = false := by
  have hfront : StatsReports metric name front :=
    { h with
      valid := fun r hr => h.valid r (List.mem_append_left _ hr)
      increasing := by
        have hincreasing := h.increasing
        rw [List.map_append, List.pairwise_append] at hincreasing
        exact hincreasing.1 }
  intro l hl
  refine Bool.eq_false_iff.mpr fun hfollows => ?_
  obtain ⟨report, hreport, rfl | ⟨entry, hentry, rfl⟩⟩ := (mem_historyLines hfront).mp hl
  · have hincreasing := h.increasing
    rw [List.map_append, List.pairwise_append] at hincreasing
    have hlt : report.csn < last.csn :=
      hincreasing.2.2 _ (List.mem_map_of_mem hreport) _ (List.mem_map_of_mem List.mem_cons_self)
    have hnewline : '\n' ∉ Nat.toDigits 10 last.csn := fun hmem => by
      cases isDigit_of_mem_toDigits hmem
    have hdigits := followsCsn_csnLine_of_clean hname hfollows
    exact absurd (le_of_toDigits_front ((Splitting.prefix_append_sep hnewline).mp hdigits))
      (by omega)
  · exact notMarker_benchLine hfront hreport hmetric hentry (equals_infix_of_followsCsn hfollows)

theorem benchesIn_lines (h : StatsReports metric name (front ++ [last])) :
    BenchesIn metric (last.lines metric) last := by
  intro line hline bench value hvalue
  obtain ⟨entry, hentry, rfl⟩ := List.mem_map.mp hline
  have hvalid := h.valid last (by simp)
  obtain ⟨hstats, hspace⟩ := hvalid.bench entry (hvalid.mem_written.mp hentry)
  rw [lineEntry_benchLine h.metric_ne h.metric_alpha hstats hspace] at hvalue
  obtain ⟨rfl, -⟩ := Prod.mk.inj (Option.some.inj hvalue)
  exact List.mem_map_of_mem (hvalid.mem_written.mp hentry)

/-- The first line of a history is a header, and its number is that of the name. -/
theorem readStats_eq_values_iff_of_digit (h : StatsReports metric name (front ++ [last]))
    (hmetric : ¬ "CSN".toList <:+: metric)
    (hlast : ∀ entry ∈ last.stats, ¬ "CSN".toList <:+: entry.1)
    (hname : ∃ c ∈ name, c.isDigit = true) :
    readStats metric (history metric name (front ++ [last])) = last.values ↔
      ∀ report ∈ front, ∀ entry ∈ report.stats, entry.1 ∈ last.stats.map Prod.fst := by
  have hsn := highSn_of_clean h hmetric hlast
  have hheader : ∀ csn, followsCsn (firstNumber (behindHeader name last.csn))
      (csnLine name csn ++ ['\n']) = true := by
    intro csn
    rw [firstNumber_behindHeader hname last.csn csn]
    exact followsCsn_of_csnNumber (csnNumber_csnLine name csn)
  cases front with
  | nil =>
    have hlines : historyLines metric name ([] ++ [last]) =
        [] ++ (csnLine name last.csn ++ ['\n']) :: last.lines metric := historyLines_append ..
    rw [readStats_eq_values_iff_of_split h hsn hlines (by simp) (hheader _)]
    simpa using benchesIn_lines h
  | cons first front =>
    have hlines : historyLines metric name (first :: front ++ [last]) =
        [] ++ (csnLine name first.csn ++ ['\n']) ::
          (first.lines metric ++ historyLines metric name (front ++ [last])) := by
      rw [List.nil_append, List.cons_append, historyLines, List.flatMap_cons, List.map_append,
        sectionLines,
        List.map_cons, List.map_map]
      rfl
    rw [readStats_eq_values_iff_of_split h hsn hlines (by simp) (hheader _)]
    have hsuffix : last.lines metric <:+
        first.lines metric ++ historyLines metric name (front ++ [last]) := by
      rw [historyLines_append]
      exact (List.suffix_cons _ _).trans
        ((List.suffix_append _ _).trans (List.suffix_append _ _))
    have hin : BenchesIn metric (historyLines metric name (first :: front ++ [last])) last ↔
        BenchesIn metric (first.lines metric ++ historyLines metric name (front ++ [last]))
          last := by
      rw [hlines, List.nil_append, BenchesIn, List.forall_mem_cons, and_iff_right]
      · rfl
      intro bench value hvalue
      rw [lineEntry_csnLine] at hvalue
      cases hvalue
    rw [and_iff_right hsuffix, ← hin, benchesIn_historyLines h]
    constructor
    · exact fun hin report hreport => hin report (List.mem_append_left _ hreport)
    · intro hin report hreport entry hentry
      rcases List.mem_append.mp hreport with hreport | hreport
      · exact hin report hreport entry hentry
      · obtain rfl := List.mem_singleton.mp hreport
        exact List.mem_map_of_mem hentry

theorem readStats_eq_values_iff_foundByNumber (h : StatsReports metric name (front ++ [last]))
    (hmetric : ¬ "CSN".toList <:+: metric) :
    readStats metric (history metric name (front ++ [last])) = last.values ↔
      FoundByNumber name front last := by
  by_cases hlast : ∀ entry ∈ last.stats, ¬ "CSN".toList <:+: entry.1
  · rw [FoundByNumber, and_iff_right hlast]
    by_cases hname : ∀ c ∈ name, c.isDigit = false
    · have hsn := highSn_of_clean h hmetric hlast
      rw [firstNumber_behindHeader_of_clean hname] at hsn
      have hheader : followsCsn (Nat.toDigits 10 last.csn) (csnLine name last.csn ++ ['\n']) =
          true := by
        have hnumber := csnNumber_csnLine name last.csn
        rw [firstNumber_behindHeader_of_clean hname] at hnumber
        exact followsCsn_of_csnNumber hnumber
      rw [readStats_eq_values_iff_of_split h hsn (historyLines_append ..)
        (notFollows_of_clean h hmetric hname) hheader]
      exact iff_of_true ⟨List.suffix_rfl, benchesIn_lines h⟩ (Or.inl hname)
    · rw [or_iff_right hname]
      push Not at hname
      exact readStats_eq_values_iff_of_digit h hmetric hlast (by simpa using hname)
  · refine iff_of_false ?_ fun hfound => hlast hfound.1
    push Not at hlast
    obtain ⟨entry, hentry, hcsn⟩ := hlast
    rw [readStats_of_none h (highSn_of_marked h hmetric hentry hcsn)]
    exact (values_ne_none h (by simp) hentry).symm

/-! ### A metric with `CSN` -/

theorem highSn_of_metric (h : StatsReports metric name (front ++ [last]))
    (hmetric : "CSN".toList <:+: metric) :
    highSn (historyLines metric name (front ++ [last])) =
      (historyLines metric name (front ++ [last])).getLast?.bind csnNumber := by
  have hall : ∀ line ∈ historyLines metric name (front ++ [last]), hasCsn line = true := by
    intro line hline
    obtain ⟨report, -, rfl | ⟨entry, -, rfl⟩⟩ := (mem_historyLines h).mp hline
    · exact hasCsn_csnLine name report.csn
    · exact hasCsn_benchLine.mpr (Or.inr hmetric)
  rw [highSn, List.filter_eq_self.mpr hall]

theorem readStats_eq_values_iff_foundByLastLine (h : StatsReports metric name (front ++ [last]))
    (hmetric : "CSN".toList <:+: metric) :
    readStats metric (history metric name (front ++ [last])) = last.values ↔
      FoundByLastLine metric name front last := by
  have hhigh := highSn_of_metric h hmetric
  cases hsn : (historyLines metric name (front ++ [last])).getLast?.bind csnNumber with
  | none =>
    rw [readStats_of_none h (hhigh.trans hsn)]
    refine iff_of_false (fun hvalues => ?_) ?_
    · have hstats : last.stats = [] := by
        refine List.eq_nil_iff_forall_not_mem.mpr fun entry hentry => ?_
        exact values_ne_none h (by simp) hentry hvalues.symm
      have hlines : last.lines metric = [] := by
        rw [StatsReport.lines, StatsReport.written, hstats]
        rfl
      rw [historyLines_append, hlines, List.getLast?_concat, Option.bind_some,
        csnNumber_csnLine] at hsn
      cases hsn
    · rintro ⟨sn, -, -, -, hsome, -⟩
      cases hsn.symm.trans hsome
  | some sn =>
    have hsplit : ∀ {before line after},
        historyLines metric name (front ++ [last]) = before ++ line :: after →
        (∀ l ∈ before, followsCsn sn l = false) → followsCsn sn line = true →
        (readStats metric (history metric name (front ++ [last])) = last.values ↔
          last.lines metric <:+ after ∧ BenchesIn metric after last) :=
      fun hlines => readStats_eq_values_iff_of_split h (hhigh.trans hsn) hlines
    constructor
    · intro hread
      rcases Splitting.clean_or_first (followsCsn sn) (historyLines metric name (front ++ [last]))
        with hclean | ⟨before, line, after, hlines, hbefore, hline⟩
      · obtain ⟨line, hline, hnumber⟩ := Option.bind_eq_some_iff.mp hsn
        have hfalse := hclean line (List.mem_of_getLast? hline)
        rw [followsCsn_of_csnNumber hnumber] at hfalse
        cases hfalse
      · obtain ⟨hlast, hin⟩ := (hsplit hlines hbefore hline).mp hread
        exact ⟨sn, before, line, after, hsn, hlines, hbefore, hline, hlast, hin⟩
    · rintro ⟨sn', before, line, after, hsn', hlines, hbefore, hline, hlast, hin⟩
      obtain rfl := Option.some.inj (hsn.symm.trans hsn')
      exact (hsplit hlines hbefore hline).mpr ⟨hlast, hin⟩

/-- The last section is read back exactly if it is found. -/
theorem readStats_eq_values_iff (h : StatsReports metric name (front ++ [last])) :
    readStats metric (history metric name (front ++ [last])) = last.values ↔
      LastFound metric name front last := by
  unfold LastFound
  split_ifs with hmetric
  · exact readStats_eq_values_iff_foundByLastLine h hmetric
  · exact readStats_eq_values_iff_foundByNumber h hmetric

end

/-! ### Two sections -/

def earlier : StatsReport := ⟨1, [("A-gcc".toList, 3 / 2)]⟩

def later : StatsReport := ⟨2, [("A-mcf".toList, 1 / 4)]⟩

theorem statsReports_twice {name : Text} (hname : '\n' ∉ name) :
    StatsReports "IPC".toList name ([earlier] ++ [later]) where
  metric_ne := by decide
  metric_alpha := List.all_eq_true.mp (by decide)
  name := hname
  valid := by
    have hbench : ∀ bench : Text, isStatsBench bench = true →
        bench.all (fun c => !isSpace c) = true →
        isStatsBench bench = true ∧ ∀ c ∈ bench, isSpace c = false :=
      fun bench hbench hspace =>
        ⟨hbench, fun c hc => by simpa using List.all_eq_true.mp hspace c hc⟩
    rintro report hreport
    rcases List.mem_cons.mp hreport with rfl | hreport
    · refine ⟨by decide, ?_, by norm_num [earlier]⟩
      exact List.forall_mem_singleton.mpr (hbench _ (by decide) (by decide))
    · obtain rfl := List.mem_singleton.mp hreport
      refine ⟨by decide, ?_, by norm_num [later]⟩
      exact List.forall_mem_singleton.mpr (hbench _ (by decide) (by decide))
  increasing := by decide

/-- Without a number in the name only the last section is read. -/
theorem readStats_core :
    readStats "IPC".toList (history "IPC".toList "core".toList ([earlier] ++ [later])) =
      later.values :=
  (readStats_eq_values_iff (statsReports_twice (by decide))).mpr (by
    have hmetric : ¬ "CSN".toList <:+: "IPC".toList := by decide
    have hname : "core".toList.all (fun c => !c.isDigit) = true := by decide
    rw [LastFound, if_neg hmetric]
    exact ⟨by decide, Or.inl fun c hc => by simpa using List.all_eq_true.mp hname c hc⟩)

/-- With a number in the name the first section is found, and a benchmark that the last one does
not have is read from it. -/
theorem readStats_core2 : StatsReports "IPC".toList "core2".toList ([earlier] ++ [later]) ∧
    readStats "IPC".toList (history "IPC".toList "core2".toList ([earlier] ++ [later])) ≠
      later.values := by
  refine ⟨statsReports_twice (by decide), fun hread => ?_⟩
  have hvalue : readStats "IPC".toList
      (history "IPC".toList "core2".toList ([earlier] ++ [later])) "A-gcc".toList =
        some "1.500".toList := by decide +kernel
  rw [hread] at hvalue
  exact absurd hvalue (by decide +kernel)

end Awb.Package
