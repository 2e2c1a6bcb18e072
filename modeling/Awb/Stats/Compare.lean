import Awb.Stats.Documents
import Mathlib.Data.Char
import Mathlib.Data.List.AList
import Mathlib.Data.List.Lex
import Mathlib.Data.List.Sort

/-! `asim-compare-stats`: the scalars and the rows of the histograms of two documents are collected
in a table each, and the tables are compared. -/

namespace Awb.Stats.Compare

/-! ### Documents -/

inductive Child
  | element (tag text : Text)
  | text (value : Text)

namespace Child

def elementText (tag : Text) : Child → Option Text
  | element tag' content => if tag' = tag then some content else none
  | text _ => none

def textValue : Child → Option Text
  | element _ _ => none
  | text value => some value

end Child

def typeTag : Text := "type".toList

def nameTag : Text := "name".toList

def valueTag : Text := "value".toList

def stringType : Text := "string".toList

/-- A scalar has one name, and one text that is not blank. -/
structure Scalar where
  children : List Child
  name : Text
  value : Text
  hasName : children.filterMap (Child.elementText nameTag) = [name]
  hasValue : (children.filterMap Child.textValue).filter (fun text => !text.all isSpace) = [value]

def Scalar.isString (s : Scalar) : Bool :=
  (s.children.filterMap (Child.elementText typeTag)).contains stringType

/-- The last text, which may be blank. -/
def Scalar.lastText (s : Scalar) : Text := (s.children.filterMap Child.textValue).getLast?.getD []

/-- A row of a histogram, with as many values as there are columns. -/
structure Row where
  children : List Child
  name : Text
  hasName : children.filterMap (Child.elementText nameTag) = [name]

def Row.values (r : Row) : List ℚ :=
  (r.children.filterMap (Child.elementText valueTag)).map number

/-- The number in the last column. -/
def Row.lastValue (r : Row) : ℚ := r.values.getLast?.getD 0

structure Histogram where
  children : List Child
  name : Text
  rows : List Row
  hasName : children.filterMap (Child.elementText nameTag) = [name]

/-- The name that a row has in the tables. -/
def rowName (name innerName : Text) : Text := name ++ '_' :: innerName

/-- The numbers of a statistic, and the one that stands last. -/
structure Numbers where
  values : List ℚ
  last : ℚ

def Scalar.numbers (s : Scalar) : Numbers := ⟨[number s.value], number s.lastText⟩

def Row.numbers (r : Row) : Numbers := ⟨r.values, r.lastValue⟩

/-- The numbers of the scalars that are no strings, and of the rows. -/
def statistics (scalars : List Scalar) (histograms : List Histogram) : List (Text × Numbers) :=
  ((scalars.filter fun s => !s.isString).map fun s => (s.name, s.numbers)) ++
    histograms.flatMap fun h => h.rows.map fun r => (rowName h.name r.name, r.numbers)

/-- A document with different names. -/
structure Document where
  scalars : List Scalar
  histograms : List Histogram
  names : ((statistics scalars histograms).map Prod.fst).Nodup

def Document.numbersOf (d : Document) (stat : Text) : Option Numbers :=
  (statistics d.scalars d.histograms).lookup stat

def Document.valuesOf (d : Document) (stat : Text) : Option (List ℚ) :=
  (d.numbersOf stat).map Numbers.values

/-! ### The tables -/

abbrev Table := AList fun _ : Text => ℚ

/-- `$hashes[$file_idx]->{$name}+=$value` -/
def add (t : Table) (name : Text) (value : ℚ) : Table :=
  t.insert name ((t.lookup name).getD 0 + value)

/-- The loop over the children of a scalar, which a string leaves. -/
def scanScalar : List Child → Text → Text → Option (Text × Text)
  | [], name, value => some (name, value)
  | .element tag text :: children, name, value =>
    if tag = typeTag ∧ text = stringType then none
    else scanScalar children (if tag = nameTag then text else name) value
  | .text value :: children, name, _ => scanScalar children name value

/-- The loop over the children of a histogram, up to its name. -/
def scanHistogram (children : List Child) : Text :=
  (children.findSome? (Child.elementText nameTag)).getD []

/-- The loop over the children of a row. -/
def scanRow : List Child → Text → Text → Text × Text
  | [], name, value => (name, value)
  | .element tag text :: children, name, value =>
    if tag = nameTag then scanRow children text value
    else if tag = valueTag then scanRow children name text
    else scanRow children name value
  | .text _ :: children, name, value => scanRow children name value

structure Options where
  percent : ℤ
  occurrences : ℤ
  printDefineds : Bool
  removeHists : Bool
  removeScalars : Bool

def defaultOptions : Options := ⟨0, 0, true, false, false⟩

def addScalar (t : Table) (s : Scalar) : Table :=
  match scanScalar s.children [] [] with
  | none => t
  | some (name, value) => add t name (number value)

def addRow (histogramName : Text) (t : Table) (r : Row) : Table :=
  let (innerName, value) := scanRow r.children [] ['0']
  add t (rowName histogramName innerName) (number value)

def addHistogram (t : Table) (h : Histogram) : Table :=
  h.rows.foldl (addRow (scanHistogram h.children)) t

def collect (options : Options) (d : Document) : Table :=
  let t := if options.removeScalars then ∅ else d.scalars.foldl addScalar ∅
  if options.removeHists then t else d.histograms.foldl addHistogram t

/-! ### The comparison -/

inductive Line
  | float (stat : Text) (percentage diff first second : ℚ)
  | integer (stat : Text) (percentage diff first second : ℚ)
  | infinite (stat : Text) (diff first second : ℚ)
  | notInFirst (stat : Text)
  | notInSecond (stat : Text)

def Line.stat : Line → Text
  | float stat _ _ _ _ => stat
  | integer stat _ _ _ _ => stat
  | infinite stat _ _ _ => stat
  | notInFirst stat => stat
  | notInSecond stat => stat

section
variable (str : ℚ → Text)

/-- The body of the loop over the names; `str` is the spelling of a number, which `ne` compares. -/
def compareStat (options : Options) (first second : Table) (stat : Text) : List Line :=
  match first.lookup stat, second.lookup stat with
  | some firstVal, some secondVal =>
    if str firstVal ≠ str secondVal then
      let diff := firstVal - secondVal
      if str secondVal ≠ ['0'] then
        let percentage := 100 * diff / secondVal
        if options.occurrences ≤ firstVal ∨ options.occurrences ≤ secondVal then
          if options.percent ≤ percentage ∨ options.percent ≤ -percentage then
            if '.' ∈ str firstVal then [.float stat percentage diff firstVal secondVal]
            else [.integer stat percentage diff firstVal secondVal]
          else []
        else []
      else if options.occurrences ≤ firstVal ∨ options.occurrences ≤ secondVal then
        [.infinite stat diff firstVal secondVal]
      else []
    else []
  | firstVal, secondVal =>
    if options.printDefineds then
      (if secondVal.isSome then [.notInFirst stat] else []) ++
        if firstVal.isSome then [.notInSecond stat] else []
    else []

/-- The lines behind the heading. -/
def compare (options : Options) (a b : Document) : List Line :=
  ((collect options a).keys.mergeSort (· ≤ ·)).flatMap
    (compareStat str options (collect options a) (collect options b))

end

/-- One line for each statistic that has other numbers in the two documents, or no numbers in one
of them. -/
structure Compared (a b : Document) (lines : List Line) : Prop where
  once : (lines.map Line.stat).Nodup
  mem : ∀ stat, stat ∈ lines.map Line.stat ↔ a.valuesOf stat ≠ b.valuesOf stat

/-! ### What the tables have -/

theorem scanScalar_eq (children : List Child) (name value : Text) :
    scanScalar children name value =
      if (children.filterMap (Child.elementText typeTag)).contains stringType then none
      else some ((children.filterMap (Child.elementText nameTag)).getLast?.getD name,
        (children.filterMap Child.textValue).getLast?.getD value) := by
  induction children generalizing name value with
  | nil => rfl
  | cons child children ih =>
    cases child with
    | text value' =>
      rw [scanScalar, ih]
      simp [Child.elementText, Child.textValue, List.getLast?_cons]
    | element tag text =>
      have htags : typeTag ≠ nameTag := by decide
      rw [scanScalar, ih]
      by_cases htype : tag = typeTag
      · subst htype
        by_cases hstring : text = stringType
        · simp [Child.elementText, hstring]
        · simp [Child.elementText, Child.textValue, hstring, htags, Ne.symm hstring]
      · by_cases hname : tag = nameTag
        · simp [Child.elementText, Child.textValue, hname, htags.symm, List.getLast?_cons]
        · simp [Child.elementText, Child.textValue, htype, hname]

theorem scanRow_eq (children : List Child) (name value : Text) :
    scanRow children name value =
      ((children.filterMap (Child.elementText nameTag)).getLast?.getD name,
        (children.filterMap (Child.elementText valueTag)).getLast?.getD value) := by
  induction children generalizing name value with
  | nil => rfl
  | cons child children ih =>
    cases child with
    | text value' => simpa [scanRow, Child.elementText] using ih name value
    | element tag text =>
      have htags : nameTag ≠ valueTag := by decide
      rw [scanRow, ih, ih, ih]
      by_cases hname : tag = nameTag
      · simp [Child.elementText, hname, htags, List.getLast?_cons]
      · by_cases hvalue : tag = valueTag
        · simp [Child.elementText, hvalue, htags.symm, List.getLast?_cons]
        · simp [Child.elementText, hname, hvalue]

theorem Histogram.scanHistogram_eq (h : Histogram) : scanHistogram h.children = h.name := by
  rw [scanHistogram, ← List.head?_filterMap, h.hasName]
  rfl

/-- A statistic is added to a table. -/
def addStatistic (t : Table) (s : Text × Numbers) : Table := add t s.1 s.2.last

theorem foldl_addScalar (scalars : List Scalar) (t : Table) :
    scalars.foldl addScalar t = ((scalars.filter fun s => !s.isString).map fun s =>
      (s.name, s.numbers)).foldl addStatistic t := by
  induction scalars generalizing t with
  | nil => rfl
  | cons s scalars ih =>
    have hscan := scanScalar_eq s.children [] []
    rw [s.hasName, ← Scalar.lastText, ← Scalar.isString] at hscan
    rw [List.foldl_cons, ih]
    cases hs : s.isString with
    | true => simp [addScalar, hscan, hs]
    | false => simp [addScalar, hscan, hs, addStatistic, Scalar.numbers]

theorem Row.number_scanRow (r : Row) (name : Text) :
    number (scanRow r.children name ['0']).2 = r.lastValue := by
  have hzero : number ['0'] = 0 := by decide +kernel
  rw [scanRow_eq, Row.lastValue, Row.values, List.getLast?_map]
  cases (r.children.filterMap (Child.elementText valueTag)).getLast? with
  | none => exact hzero
  | some text => rfl

theorem foldl_addHistogram (histograms : List Histogram) (t : Table) :
    histograms.foldl addHistogram t = (histograms.flatMap fun h =>
      h.rows.map fun r => (rowName h.name r.name, r.numbers)).foldl addStatistic t := by
  induction histograms generalizing t with
  | nil => rfl
  | cons h histograms ih =>
    have hrow : addRow h.name = fun t r => addStatistic t (rowName h.name r.name, r.numbers) := by
      funext t r
      rw [addStatistic, Row.numbers, ← r.number_scanRow [], addRow]
      have hname : (scanRow r.children [] ['0']).1 = r.name := by
        rw [scanRow_eq, r.hasName]
        rfl
      rw [← hname]
    rw [List.foldl_cons, ih, List.flatMap_cons, List.foldl_append, List.foldl_map, addHistogram,
      h.scanHistogram_eq, hrow]

theorem collect_eq (d : Document) : collect defaultOptions d =
    (statistics d.scalars d.histograms).foldl addStatistic ∅ := by
  rw [statistics, List.foldl_append, ← foldl_addScalar, ← foldl_addHistogram]
  rfl

/-- Of different names nothing is added up. -/
theorem lookup_foldl_addStatistic (entries : List (Text × Numbers))
    (hnodup : (entries.map Prod.fst).Nodup) (t : Table) (ht : ∀ e ∈ entries, t.lookup e.1 = none)
    (stat : Text) : (entries.foldl addStatistic t).lookup stat =
      ((entries.lookup stat).map Numbers.last).or (t.lookup stat) := by
  induction entries generalizing t with
  | nil => simp
  | cons e entries ih =>
    obtain ⟨name, numbers⟩ := e
    obtain ⟨hname, hnodup⟩ := List.nodup_cons.mp hnodup
    obtain ⟨hnone, ht⟩ := List.forall_mem_cons.mp ht
    have hinsert : ∀ k, (addStatistic t (name, numbers)).lookup k =
        if k = name then some numbers.last else t.lookup k := by
      intro k
      rw [addStatistic, add, hnone, Option.getD_none, zero_add]
      split_ifs with hk
      · rw [hk, AList.lookup_insert]
      · rw [AList.lookup_insert_ne hk]
    have ht' : ∀ e ∈ entries, (addStatistic t (name, numbers)).lookup e.1 = none := by
      intro e he
      have hne : e.1 ≠ name := fun heq => hname (List.mem_map.mpr ⟨e, he, heq⟩)
      rw [hinsert, if_neg hne, ht e he]
    rw [List.foldl_cons, ih hnodup _ ht', hinsert, List.lookup_cons]
    by_cases hk : stat = name
    · have hlookup : entries.lookup name = none := by
        refine List.lookup_eq_none_iff.mpr fun e he => ?_
        have hne : name ≠ e.1 := fun heq => hname (List.mem_map.mpr ⟨e, he, heq.symm⟩)
        simpa using hne
      simp [hk, hlookup]
    · have hbeq : (stat == name) = false := beq_false_of_ne hk
      simp [hk, hbeq]

theorem lookup_collect (d : Document) (stat : Text) :
    (collect defaultOptions d).lookup stat = (d.numbersOf stat).map Numbers.last := by
  rw [collect_eq, lookup_foldl_addStatistic _ d.names _ (fun _ _ => AList.lookup_empty _),
    AList.lookup_empty, Option.or_none, Document.numbersOf]

/-! ### The lines -/

section
variable {str : ℚ → Text} {a b : Document} {stat : Text}

/-- Two numbers are printed, if they are compared. -/
def LineFor (str : ℚ → Text) (first second : ℚ) : Prop :=
  str first ≠ str second ∧ (0 ≤ first ∨ 0 ≤ second)

/-- A statistic has a line, if the first document has it. -/
def Printed (str : ℚ → Text) (a b : Document) (stat : Text) : Prop :=
  match a.numbersOf stat, b.numbersOf stat with
  | none, _ => False
  | some _, none => True
  | some numbers, some numbers' => LineFor str numbers.last numbers'.last

/-- A percentage is not negative, or its opposite is not. -/
theorem map_stat_compareStat [Decidable (Printed str a b stat)]
    (hstat : (a.numbersOf stat).isSome) :
    (compareStat str defaultOptions (collect defaultOptions a) (collect defaultOptions b) stat).map
      Line.stat = if Printed str a b stat then [stat] else [] := by
  obtain ⟨numbers, hnumbers⟩ := Option.isSome_iff_exists.mp hstat
  have hpercent : ∀ q : ℚ, (0 ≤ q ∨ q ≤ 0) = True := fun q => eq_true (le_total 0 q)
  rw [compareStat, lookup_collect, lookup_collect, hnumbers]
  cases hnumbers' : b.numbersOf stat with
  | none =>
    have hprinted : Printed str a b stat := by simp [Printed, hnumbers, hnumbers']
    simp [defaultOptions, hprinted, Line.stat]
  | some numbers' =>
    have hprinted : Printed str a b stat ↔ str numbers.last ≠ str numbers'.last ∧
        (0 ≤ numbers.last ∨ 0 ≤ numbers'.last) := by simp [Printed, LineFor, hnumbers, hnumbers']
    simp only [hprinted, Option.map_some, defaultOptions, Int.cast_zero, Left.nonneg_neg_iff,
      hpercent, if_true]
    split_ifs <;> first | rfl | tauto

theorem mem_keys_collect :
    stat ∈ (collect defaultOptions a).keys ↔ (a.numbersOf stat).isSome = true := by
  rw [← AList.mem_keys, ← AList.lookup_isSome, lookup_collect, Option.isSome_map]

open Classical in
/-- The lines are for the statistics of the first document that `Printed` describes. -/
theorem map_stat_compare :
    (compare str defaultOptions a b).map Line.stat =
      ((collect defaultOptions a).keys.mergeSort (· ≤ ·)).filter (Printed str a b ·) := by
  have hkeys : ∀ stat ∈ (collect defaultOptions a).keys.mergeSort (· ≤ ·),
      (a.numbersOf stat).isSome := fun stat h => mem_keys_collect.mp (List.mem_mergeSort.mp h)
  rw [compare]
  generalize (collect defaultOptions a).keys.mergeSort (· ≤ ·) = stats at hkeys
  induction stats with
  | nil => rfl
  | cons stat stats ih =>
    obtain ⟨hstat, hstats⟩ := List.forall_mem_cons.mp hkeys
    rw [List.flatMap_cons, List.map_append, ih hstats, map_stat_compareStat hstat,
      List.filter_cons]
    by_cases hprinted : Printed str a b stat <;> simp [hprinted]

theorem mem_map_stat_compare :
    stat ∈ (compare str defaultOptions a b).map Line.stat ↔ Printed str a b stat := by
  classical
  rw [map_stat_compare, List.mem_filter, List.mem_mergeSort, mem_keys_collect, decide_eq_true_eq,
    and_iff_right_iff_imp]
  intro h
  rw [Printed] at h
  cases hnumbers : a.numbersOf stat with
  | none => simp [hnumbers] at h
  | some numbers => rfl

end

def emptyDocument : Document := ⟨[], [], List.nodup_nil⟩

def cycles : Scalar where
  children := [.element typeTag "uint".toList, .element nameTag "cycles".toList, .text ['7']]
  name := "cycles".toList
  value := ['7']
  hasName := rfl
  hasValue := rfl

def oneScalar : Document := ⟨[cycles], [], List.nodup_singleton _⟩

/-- How an integer is spelled. -/
def spellInteger (q : ℚ) : Text := (toString q.num).toList

end Awb.Stats.Compare
