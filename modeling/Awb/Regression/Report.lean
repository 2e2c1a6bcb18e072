import Awb.Builder.Paths
import Mathlib.Data.Char
import Mathlib.Data.List.AList
import Mathlib.Data.List.Lex
import Mathlib.Data.List.Sort
import Mathlib.Tactic

/-! The table of a regression: `report` joins the benchmarks of the old and the new statistics, with
the name of each new one as a pattern, and writes how their metric has changed. -/

namespace Awb.Regression

/-- The statistics of the benchmarks, in the order of `keys`. -/
abbrev Stats := AList fun _ : Text => AList fun _ : Text => ℚ

namespace Stats

/-- `$stats{$bench}{$field} || 0` -/
def value (stats : Stats) (bench field : Text) : ℚ :=
  ((stats.lookup bench).bind (AList.lookup field)).getD 0

end Stats

inductive Variation
  | percent (value : ℚ)
  | error
  | newEntry
  | blank
  deriving DecidableEq

structure Row where
  bench : Text
  old : Option ℚ
  new : Option ℚ
  variation : Variation
  deriving DecidableEq

/-- The names that a regular expression finds, if it is one. -/
abbrev Patterns := Text → Option (Text → Bool)

/-- `grep(/$bench/, @jointbench)`; no name, no match. -/
def grep (re : Patterns) (bench : Text) (jointbench : List Text) : Option Bool :=
  if jointbench = [] then some false else (re bench).map jointbench.any

/-- The new benchmarks that nothing matches are appended. -/
def join (re : Patterns) (jointbench nbench : List Text) : Option (List Text) :=
  nbench.foldlM (fun jointbench bench =>
    (grep re bench jointbench).map fun found =>
      if found then jointbench else jointbench ++ [bench]) jointbench

def variation (oldnum newnum : ℚ) : Variation :=
  if 0 < oldnum ∧ 0 < newnum then .percent (100 * (newnum - oldnum) / oldnum)
  else if 0 < oldnum ∧ newnum = 0 then .error
  else if oldnum = 0 ∧ 0 < newnum then .newEntry
  else .blank

/-- A number that is printed, unless it is not positive. -/
def shown (num : ℚ) : Option ℚ := if 0 < num then some num else none

def row (ostats nstats : Stats) (metric bench : Text) : Row where
  bench := bench
  old := shown (ostats.value bench metric)
  new := shown (nstats.value bench metric)
  variation := variation (ostats.value bench metric) (nstats.value bench metric)

/-- `report`, or nothing if a name is no regular expression. -/
def report (re : Patterns) (ostats nstats : Stats) (metric : Text) : Option (List Row) :=
  (join re ostats.keys nstats.keys).map fun jointbench =>
    (jointbench.mergeSort (· ≤ ·)).map (row ostats nstats metric)

/-! ### What the table should have -/

def documentedVariation (oldnum newnum : ℚ) : Variation :=
  if 0 < oldnum then
    if 0 < newnum then .percent (100 * (newnum - oldnum) / oldnum) else .error
  else if 0 < newnum then .newEntry else .blank

/-- One row for each benchmark of the tables, in the order of their names. -/
structure Reported (ostats nstats : Stats) (metric : Text) (rows : List Row) : Prop where
  sorted : (rows.map Row.bench).Pairwise (· < ·)
  mem : ∀ bench, bench ∈ rows.map Row.bench ↔ bench ∈ ostats ∨ bench ∈ nstats
  old : ∀ r ∈ rows, r.old = shown (ostats.value r.bench metric)
  new : ∀ r ∈ rows, r.new = shown (nstats.value r.bench metric)
  variation : ∀ r ∈ rows, r.variation =
    documentedVariation (ostats.value r.bench metric) (nstats.value r.bench metric)

/-- One number is positive and the other one negative. -/
def Opposite (oldnum newnum : ℚ) : Prop :=
  0 < oldnum ∧ newnum < 0 ∨ oldnum < 0 ∧ 0 < newnum

theorem variation_eq_documented_iff (oldnum newnum : ℚ) :
    variation oldnum newnum = documentedVariation oldnum newnum ↔ ¬Opposite oldnum newnum := by
  rw [variation, documentedVariation, Opposite]
  rcases lt_trichotomy oldnum 0 with hold | rfl | hold
  · rcases lt_trichotomy newnum 0 with hnew | rfl | hnew
    · simp [hold.not_gt, hnew.not_gt]
    · simp [hold.not_gt]
    · simp [hold, hold.not_gt, hold.ne, hnew]
  · rcases lt_trichotomy newnum 0 with hnew | rfl | hnew
    · simp [hnew.not_gt]
    · simp
    · simp [hnew]
  · rcases lt_trichotomy newnum 0 with hnew | rfl | hnew
    · simp [hold, hold.ne', hnew, hnew.not_gt, hnew.ne]
    · simp [hold]
    · simp [hold, hnew, hnew.not_gt, hold.not_gt]

/-! ### Joining -/

section join
variable {re : Patterns} {jointbench joined : List Text} {bench : Text} {nbench : List Text}

theorem join_cons (re : Patterns) (jointbench : List Text) (bench : Text) (nbench : List Text) :
    join re jointbench (bench :: nbench) = (grep re bench jointbench).bind fun found =>
      join re (if found then jointbench else jointbench ++ [bench]) nbench := by
  rw [join, List.foldlM_cons]
  cases grep re bench jointbench <;> rfl

/-- Names are only appended, and each of them once. -/
theorem exists_of_join (h : join re jointbench nbench = some joined) :
    ∃ added, joined = jointbench ++ added ∧ added.Sublist nbench := by
  induction nbench generalizing jointbench with
  | nil => exact ⟨[], by simpa [join] using h.symm, List.Sublist.refl _⟩
  | cons bench nbench ih =>
    rw [join_cons] at h
    obtain ⟨found, -, h⟩ := Option.bind_eq_some_iff.mp h
    obtain ⟨added, rfl, hsub⟩ := ih h
    cases found with
    | true => exact ⟨added, rfl, hsub.cons bench⟩
    | false => exact ⟨bench :: added, by simp, hsub.cons_cons bench⟩

theorem nodup_append_filter {old : Text → Bool} (hjoint : jointbench.Nodup) (hnew : nbench.Nodup)
    (hold : ∀ b ∈ nbench, b ∈ jointbench ↔ old b = true) :
    (jointbench ++ nbench.filter fun b => !old b).Nodup := by
  refine hjoint.append (hnew.filter _) fun b hb hb' => ?_
  obtain ⟨hmem, hnot⟩ := List.mem_filter.mp hb'
  simp [(hold b hmem).mp hb] at hnot

/-- Of the new names those are appended that the old list does not have. -/
theorem join_perm_iff (old : Text → Bool) (hjoint : jointbench.Nodup) (hnew : nbench.Nodup)
    (hold : ∀ b ∈ nbench, b ∈ jointbench ↔ old b = true) :
    (∃ joined, join re jointbench nbench = some joined ∧
        joined.Perm (jointbench ++ nbench.filter fun b => !old b)) ↔
      ∀ before bench after, nbench = before ++ bench :: after →
        grep re bench (jointbench ++ before.filter fun b => !old b) = some (old bench) := by
  induction nbench generalizing jointbench with
  | nil =>
    refine iff_of_true ⟨jointbench, rfl, by simp⟩ fun before bench after h => ?_
    exact absurd h.symm (by simp)
  | cons b nbench ih =>
    obtain ⟨hb, hnew⟩ := List.nodup_cons.mp hnew
    obtain ⟨holdb, hold⟩ := List.forall_mem_cons.mp hold
    have hsplit : (∀ before bench after, b :: nbench = before ++ bench :: after →
          grep re bench (jointbench ++ before.filter fun b => !old b) = some (old bench)) ↔
        grep re b jointbench = some (old b) ∧
          ∀ before bench after, nbench = before ++ bench :: after →
            grep re bench (jointbench ++ (b :: before).filter fun b => !old b) =
              some (old bench) := by
      constructor
      · refine fun h => ⟨by simpa using h [] b nbench rfl, fun before bench after heq => ?_⟩
        exact h (b :: before) bench after (by rw [heq, List.cons_append])
      · rintro ⟨hfirst, hrest⟩ before bench after heq
        cases before with
        | nil =>
          obtain ⟨rfl, -⟩ := List.cons.inj heq
          simpa using hfirst
        | cons b' before =>
          obtain ⟨rfl, hrest'⟩ := List.cons.inj heq
          exact hrest before bench after hrest'
    rw [hsplit, join_cons]
    cases hb' : old b with
    | true =>
      have hmem : b ∈ jointbench := holdb.mpr hb'
      have hfilter : ∀ l, (b :: l).filter (fun b => !old b) = l.filter fun b => !old b :=
        fun l => List.filter_cons_of_neg (by simp [hb'])
      simp only [hfilter]
      rw [← ih hjoint hnew hold]
      constructor
      · rintro ⟨joined, hjoin, hperm⟩
        obtain ⟨found, hfound, hjoin⟩ := Option.bind_eq_some_iff.mp hjoin
        cases found with
        | true => exact ⟨hfound, joined, hjoin, hperm⟩
        | false =>
          -- the name is there twice
          obtain ⟨added, rfl, -⟩ := exists_of_join hjoin
          have hnodup := hperm.nodup_iff.mpr (nodup_append_filter hjoint hnew hold)
          have hdisjoint := (List.nodup_append.mp hnodup.of_append_left).2.2
          exact absurd rfl (hdisjoint b hmem b (List.mem_singleton.mpr rfl))
      · rintro ⟨hfound, joined, hjoin, hperm⟩
        exact ⟨joined, Option.bind_eq_some_iff.mpr ⟨true, hfound, hjoin⟩, hperm⟩
    | false =>
      have hmem : b ∉ jointbench := fun h => by simpa [hb'] using holdb.mp h
      have hfilter : ∀ l, jointbench ++ (b :: l).filter (fun b => !old b) =
          jointbench ++ [b] ++ l.filter fun b => !old b := by
        intro l
        rw [List.filter_cons_of_pos (by simp [hb']), List.append_cons]
      have hjoint' : (jointbench ++ [b]).Nodup :=
        hjoint.append (List.nodup_singleton b) (List.disjoint_singleton.mpr hmem)
      have hold' : ∀ b' ∈ nbench, b' ∈ jointbench ++ [b] ↔ old b' = true := by
        intro b' hb''
        have hne : b' ≠ b := fun h => hb (h ▸ hb'')
        simpa [hne] using hold b' hb''
      simp only [hfilter]
      rw [← ih hjoint' hnew hold']
      constructor
      · rintro ⟨joined, hjoin, hperm⟩
        obtain ⟨found, hfound, hjoin⟩ := Option.bind_eq_some_iff.mp hjoin
        cases found with
        | true =>
          -- the name is missing
          obtain ⟨added, rfl, hsub⟩ := exists_of_join hjoin
          have hmissing : b ∈ jointbench ++ added := hperm.mem_iff.mpr (by simp)
          exact absurd hmissing (by simpa using ⟨hmem, fun h => hb (hsub.subset h)⟩)
        | false => exact ⟨hfound, joined, hjoin, hperm⟩
      · rintro ⟨hfound, joined, hjoin, hperm⟩
        exact ⟨joined, Option.bind_eq_some_iff.mpr ⟨false, hfound, hjoin⟩, hperm⟩

end join

/-! ### The rows -/

section
variable {ostats nstats : Stats} {metric : Text}

/-- The benchmarks of both tables, those of the old one first. -/
def benchmarks (ostats nstats : Stats) : List Text :=
  ostats.keys ++ nstats.keys.filter fun bench => !decide (bench ∈ ostats)

theorem nodup_benchmarks (ostats nstats : Stats) : (benchmarks ostats nstats).Nodup :=
  nodup_append_filter ostats.keys_nodup nstats.keys_nodup fun _ _ => by
    rw [decide_eq_true_eq, AList.mem_keys]

theorem mem_benchmarks {bench : Text} :
    bench ∈ benchmarks ostats nstats ↔ bench ∈ ostats ∨ bench ∈ nstats := by
  rw [benchmarks, List.mem_append, List.mem_filter, ← AList.mem_keys, ← AList.mem_keys]
  by_cases h : bench ∈ ostats <;> simp [h]

theorem map_bench_map_row (l : List Text) :
    (l.map (row ostats nstats metric)).map Row.bench = l := by
  rw [List.map_map]
  exact List.map_id l

/-- Sorted rows are as they should be if they are for the right benchmarks. -/
theorem reported_map_row_iff (joined : List Text) :
    Reported ostats nstats metric
        ((joined.mergeSort (· ≤ ·)).map (row ostats nstats metric)) ↔
      joined.Perm (benchmarks ostats nstats) ∧ ∀ bench, bench ∈ ostats ∨ bench ∈ nstats →
        ¬Opposite (ostats.value bench metric) (nstats.value bench metric) := by
  have hsorted : (joined.mergeSort (· ≤ ·)).Perm joined := List.mergeSort_perm ..
  constructor
  · intro h
    have hlt := h.sorted
    have hmem := h.mem
    rw [map_bench_map_row] at hlt hmem
    have hperm : joined.Perm (benchmarks ostats nstats) := by
      refine (List.perm_ext_iff_of_nodup ?_ (nodup_benchmarks ..)).mpr fun bench => ?_
      · exact hsorted.nodup_iff.mp (hlt.imp fun hab => hab.ne)
      · rw [mem_benchmarks, ← hmem, hsorted.mem_iff]
    refine ⟨hperm, fun bench hbench => (variation_eq_documented_iff _ _).mp ?_⟩
    rw [← mem_benchmarks, ← hperm.mem_iff, ← hsorted.mem_iff] at hbench
    exact h.variation _ (List.mem_map_of_mem hbench)
  · rintro ⟨hperm, hopposite⟩
    have hmem : ∀ {bench}, bench ∈ joined.mergeSort (· ≤ ·) ↔ bench ∈ ostats ∨ bench ∈ nstats := by
      intro bench
      rw [hsorted.mem_iff, hperm.mem_iff, mem_benchmarks]
    refine ⟨?_, ?_, ?_, ?_, ?_⟩
    · rw [map_bench_map_row]
      have hnodup := hsorted.nodup_iff.mpr (hperm.nodup_iff.mpr (nodup_benchmarks ..))
      exact hnodup.imp₂ (fun _ _ hne hle => lt_of_le_of_ne hle hne)
        (List.pairwise_mergeSort' (· ≤ ·) joined)
    · intro bench
      rw [map_bench_map_row, hmem]
    · intro r hr
      obtain ⟨bench, -, rfl⟩ := List.mem_map.mp hr
      rfl
    · intro r hr
      obtain ⟨bench, -, rfl⟩ := List.mem_map.mp hr
      rfl
    · intro r hr
      obtain ⟨bench, hbench, rfl⟩ := List.mem_map.mp hr
      exact (variation_eq_documented_iff _ _).mpr (hopposite bench (hmem.mp hbench))

end

/-- The table is as it should be if each new benchmark matches, as a pattern, one of those that are
there already exactly when it is an old one, and no number of a pair is positive with the other one
negative. -/
theorem report_reported_iff (re : Patterns) (ostats nstats : Stats) (metric : Text) :
    (∃ rows, report re ostats nstats metric = some rows ∧ Reported ostats nstats metric rows) ↔
      (∀ before bench after, nstats.keys = before ++ bench :: after →
        grep re bench (ostats.keys ++ before.filter fun b => !decide (b ∈ ostats)) =
          some (decide (bench ∈ ostats))) ∧
      ∀ bench, bench ∈ ostats ∨ bench ∈ nstats →
        ¬Opposite (ostats.value bench metric) (nstats.value bench metric) := by
  have hold : ∀ b ∈ nstats.keys, b ∈ ostats.keys ↔ decide (b ∈ ostats) = true := by
    intro b _
    rw [decide_eq_true_eq, AList.mem_keys]
  rw [← join_perm_iff (fun b => decide (b ∈ ostats)) ostats.keys_nodup nstats.keys_nodup hold]
  constructor
  · rintro ⟨rows, hrows, hreported⟩
    obtain ⟨joined, hjoin, rfl⟩ := Option.map_eq_some_iff.mp hrows
    obtain ⟨hperm, hopposite⟩ := (reported_map_row_iff joined).mp hreported
    exact ⟨⟨joined, hjoin, hperm⟩, hopposite⟩
  · rintro ⟨⟨joined, hjoin, hperm⟩, hopposite⟩
    refine ⟨_, ?_, (reported_map_row_iff joined).mpr ⟨hperm, hopposite⟩⟩
    rw [report, hjoin, Option.map_some]

/-- What names without special characters match. -/
def plainPatterns : Patterns := fun bench => some fun name => name.tails.any bench.isPrefixOf

def statsOf (bench : Text) (value : ℚ) : Stats :=
  AList.singleton bench (AList.singleton "IPC".toList value)

/-- The name of the new benchmark is a part of the old one, so it has no row. -/
theorem not_reported_part :
    ¬∃ rows, report plainPatterns (statsOf "gcc-opt".toList (3 / 2)) (statsOf "gcc".toList 1)
        "IPC".toList = some rows ∧
      Reported (statsOf "gcc-opt".toList (3 / 2)) (statsOf "gcc".toList 1) "IPC".toList rows := by
  rintro ⟨rows, hrows, hreported⟩
  have hjoin : join plainPatterns ["gcc-opt".toList] ["gcc".toList] = some ["gcc-opt".toList] := rfl
  have hkeys : ∀ bench value, (statsOf bench value).keys = [bench] := fun _ _ => rfl
  rw [report, hkeys, hkeys, hjoin, Option.map_some, List.mergeSort_singleton] at hrows
  obtain rfl := Option.some.inj hrows
  have hmem := (hreported.mem "gcc".toList).mpr (Or.inr (AList.mem_keys.mpr (by decide)))
  exact absurd (List.mem_singleton.mp hmem) (by decide)

end Awb.Regression
