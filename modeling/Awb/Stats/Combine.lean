import Awb.Stats.Collect

/-! `COMBINE`: some scalars, or histograms of one row or one column, make one histogram. -/

namespace Awb.Stats

namespace Data

/-- An entry on the right of an assignment: the tables above it come into being. -/
def vivify (d : Data) (k : Place) : Data := fun exp bm path =>
  if exp = k.exp ∧ bm = k.bm ∧ path = k.path then
    some ((d exp bm path).getD fun _ _ => none)
  else d exp bm path

/-- An assignment of a value that may be undefined. -/
def assign (d : Data) (k : Place) (value : Option Text) : Data := fun exp bm path =>
  if exp = k.exp ∧ bm = k.bm ∧ path = k.path then
    some fun row col =>
      if row = k.row ∧ col = k.col then value
      else (d exp bm path).bind fun table => table row col
  else d exp bm path

def copy (d : Data) (source target : Place) : Data :=
  (d.vivify source).assign target (d.read source)

theorem read_vivify (d : Data) (k k' : Place) : (d.vivify k).read k' = d.read k' := by
  rw [read, read, vivify]
  split_ifs
  · cases d k'.exp k'.bm k'.path <;> rfl
  · rfl

theorem read_assign (d : Data) (k : Place) (value : Option Text) (k' : Place) :
    (d.assign k value).read k' = if k' = k then value else d.read k' := by
  obtain ⟨exp, bm, path, row, col⟩ := k
  obtain ⟨exp', bm', path', row', col'⟩ := k'
  simp only [read, assign, Place.mk.injEq]
  by_cases hpath : exp' = exp ∧ bm' = bm ∧ path' = path
  · obtain ⟨rfl, rfl, rfl⟩ := hpath
    simp
  · have hplace : ¬ (exp' = exp ∧ bm' = bm ∧ path' = path ∧ row' = row ∧ col' = col) :=
      fun h => hpath ⟨h.1, h.2.1, h.2.2.1⟩
    rw [if_neg hpath, if_neg hplace]

theorem read_copy (d : Data) (source target k : Place) :
    (d.copy source target).read k = if k = target then d.read source else d.read k := by
  rw [copy, read_assign, read_vivify]

def copier : Copier Data Place (Option Text) := ⟨read, copy, read_copy⟩

end Data

/-- What the synthetic parameters work on. -/
structure Stored where
  data : Data
  paraminfo : Text → Option Info
  /-- `dimensions`, whose parameters are not defined before the data is extracted. -/
  params : Option (List Text)
  experiments : List Text
  benchmarks : List Text

inductive CombineFailure
  | notExtracted
  | noMatch
  | oneMatch
  | bothDimensions
  | rows
  | cols
  | rowNames
  | colNames
  | died
  deriving DecidableEq, Repr

def Info.rows (info : Info) : ℚ := number (info.nrows.getD [])

def Info.cols (info : Info) : ℚ := number (info.ncols.getD [])

/-- Labels that are not defined cannot be dereferenced. -/
def orUndefined {α : Type} : Option α → Except CombineFailure α
  | none => .error .died
  | some a => .ok a

/-- `_hist_dimensions_match`. -/
def histDimensionsMatch (p₁ p₂ : Info) : Except CombineFailure Unit := do
  if p₁.rows ≠ p₂.rows then throw .rows
  if p₁.cols ≠ p₂.cols then throw .cols
  let label₁ ← orUndefined p₁.rlabels
  let label₂ ← orUndefined p₂.rlabels
  if [' '].intercalate label₁ ≠ [' '].intercalate label₂ then throw .rowNames
  let label₁ ← orUndefined p₁.clabels
  let label₂ ← orUndefined p₂.clabels
  if [' '].intercalate label₁ ≠ [' '].intercalate label₂ then throw .colNames

namespace Stored

def info (s : Stored) (param : Text) : Info := (s.paraminfo param).getD ⟨[], none, none, none, none⟩

/-- `_add_new_param`. -/
def addNewParam (s : Stored) (param : Text) (nrows ncols : Option Text)
    (rlabels clabels : List Text) : Except CombineFailure Stored :=
  match s.paraminfo param with
  | some _ => .error .died
  | none =>
    let type := if number (nrows.getD []) = 1 ∧ number (ncols.getD []) = 1 then "scalar"
      else "histogram"
    .ok { s with
      params := some (s.params.getD [] ++ [param])
      paraminfo := Function.update s.paraminfo param
        (some ⟨type.toList, nrows, ncols, some rlabels, some clabels⟩) }

/-- The places of a new parameter, in the order of the loops. -/
def targets (s : Stored) (newParam : Text) (rows cols : List Text) : List Place :=
  s.experiments.flatMap fun exp => s.benchmarks.flatMap fun bm =>
    rows.flatMap fun row => cols.map fun col => ⟨exp, bm, newParam, row, col⟩

/-- The loops that fill the new parameter. -/
def fill (s : Stored) (newParam : Text) (rows cols : List Text) (source : Place → Place) : Stored :=
  { s with data := Data.copier.copyAll source s.data (s.targets newParam rows cols) }

/-- The new vector, or the full histogram, of parameters that are like the first one. -/
def build (s : Stored) (newParam : Text) (comb : List Text) (prev : Info)
    (rowLabels colLabels : List Text) : Except CombineFailure Stored :=
  let count := Nat.toDigits 10 comb.length
  if prev.rows = 1 ∧ prev.cols = 1 then
    -- only scalars
    let s := s.fill newParam [zero] comb fun k => ⟨k.exp, k.bm, k.col, zero, zero⟩
    s.addNewParam newParam (some ['1']) (some count) [zero] comb
  else if prev.rows > 1 then
    -- one column, some rows for each parameter
    let s := s.fill newParam rowLabels comb fun k =>
      ⟨k.exp, k.bm, k.col, k.row, colLabels.headD []⟩
    s.addNewParam newParam prev.nrows (some count) rowLabels comb
  else
    -- one row, some columns for each parameter
    let s := s.fill newParam comb colLabels fun k =>
      ⟨k.exp, k.bm, k.col, rowLabels.headD [], k.col⟩
    s.addNewParam newParam (some count) prev.ncols comb colLabels

/-- `_func_COMBINE` for the parameters that the search found. -/
def combine (s : Stored) (newParam : Text) (comb : List Text) : Except CombineFailure Stored :=
  if s.params = none then .error .notExtracted
  else
    match comb with
    | [] => .error .noMatch
    | [_] => .error .oneMatch
    | first :: rest => do
      let prev := s.info first
      let colLabels ← orUndefined prev.clabels
      let rowLabels ← orUndefined prev.rlabels
      if prev.rows > 1 ∧ prev.cols > 1 then throw .bothDimensions
      else
        rest.forM fun param => histDimensionsMatch (s.info param) prev
        s.build newParam comb prev rowLabels colLabels

end Stored

/-! ### The matrix of some vectors -/

/-- A matrix whose entries come from other places of the same experiment and benchmark. -/
structure Matrix where
  rows : List Text
  cols : List Text
  source : Place → Place

/-- The matrix that is built from parameters with the given labels: scalars get one row, column
vectors a column each, and row vectors a row each. -/
def matrix (comb rlabels clabels : List Text) : Matrix :=
  if rlabels.length = 1 ∧ clabels.length = 1 then
    ⟨[zero], comb, fun k => ⟨k.exp, k.bm, k.col, rlabels.headD [], clabels.headD []⟩⟩
  else if clabels.length = 1 then
    ⟨rlabels, comb, fun k => ⟨k.exp, k.bm, k.col, k.row, clabels.headD []⟩⟩
  else
    ⟨comb, clabels, fun k => ⟨k.exp, k.bm, k.row, rlabels.headD [], k.col⟩⟩

/-- Parameters of one size with the same labels, each with one row or one column. -/
structure Vectors (s : Stored) (newParam : Text) (comb rlabels clabels : List Text) : Prop where
  extracted : s.params ≠ none
  nodup : comb.Nodup
  two : 2 ≤ comb.length
  info : ∀ param ∈ comb, ∃ info type, s.paraminfo param = some info ∧
    info.HasShape ⟨type, rlabels.length, clabels.length, rlabels, clabels⟩
  vector : rlabels.length = 1 ∨ clabels.length = 1
  isNew : s.paraminfo newParam = none

/-- The new parameter is the matrix, and is registered with its shape and labels. -/
def StoresMatrix (s s' : Stored) (newParam : Text) (m : Matrix) : Prop :=
  (∃ info, s'.paraminfo newParam = some info ∧
    info.HasShape ⟨"histogram".toList, m.rows.length, m.cols.length, m.rows, m.cols⟩) ∧
  s'.params = s.params.map (· ++ [newParam]) ∧
  ∀ exp ∈ s.experiments, ∀ bm ∈ s.benchmarks, ∀ row ∈ m.rows, ∀ col ∈ m.cols,
    s'.data.read ⟨exp, bm, newParam, row, col⟩ =
      s.data.read (m.source ⟨exp, bm, newParam, row, col⟩)

/-- Scalars have to have the labels `0`, or the same value there; column vectors must not be empty;
for a row vector, the value of a parameter with the name of the column is taken. -/
def CombinesRight (s : Stored) (comb rlabels clabels : List Text) : Prop :=
  if rlabels.length = 1 ∧ clabels.length = 1 then
    ∀ exp ∈ s.experiments, ∀ bm ∈ s.benchmarks, ∀ param ∈ comb,
      s.data.read ⟨exp, bm, param, zero, zero⟩ =
        s.data.read ⟨exp, bm, param, rlabels.headD [], clabels.headD []⟩
  else if clabels.length = 1 then rlabels ≠ []
  else
    ∀ exp ∈ s.experiments, ∀ bm ∈ s.benchmarks, ∀ param ∈ comb, ∀ col ∈ clabels,
      s.data.read ⟨exp, bm, col, rlabels.headD [], col⟩ =
        s.data.read ⟨exp, bm, param, rlabels.headD [], col⟩

/-! ### What the loops store -/

/-- What the loops fill the new parameter with. -/
def filling (comb rlabels clabels : List Text) : Matrix :=
  if rlabels.length = 1 ∧ clabels.length = 1 then
    ⟨[zero], comb, fun k => ⟨k.exp, k.bm, k.col, zero, zero⟩⟩
  else if 1 < rlabels.length then
    ⟨rlabels, comb, fun k => ⟨k.exp, k.bm, k.col, k.row, clabels.headD []⟩⟩
  else
    ⟨comb, clabels, fun k => ⟨k.exp, k.bm, k.col, rlabels.headD [], k.col⟩⟩

section
variable {s : Stored} {newParam : Text} {comb rlabels clabels : List Text}

theorem natOfDigits_toDigits (n : ℕ) : natOfDigits (Nat.toDigits 10 n) = n := by
  have hfold : ∀ (digits : Text) (m : ℕ), digits.foldl (fun n c => 10 * n + (c.toNat - 48)) m =
      Nat.ofDigitChars 10 digits m := by
    intro digits
    induction digits with
    | nil => exact fun m => rfl
    | cons c digits ih =>
      intro m
      rw [List.foldl_cons, ih, Nat.ofDigitChars_cons]
      rfl
  rw [natOfDigits, hfold, Nat.ofDigitChars_ten_toDigits]

/-- A number is read as it is printed. -/
theorem number_toDigits (n : ℕ) : number (Nat.toDigits 10 n) = n := by
  have hdigits : ∀ c ∈ Nat.toDigits 10 n, c.isDigit = true := fun c hc =>
    Nat.isDigit_of_mem_toDigits (by decide) (by decide) hc
  have hleading : leadingDigits (Nat.toDigits 10 n) = Nat.toDigits 10 n :=
    List.takeWhile_eq_self_iff.mpr hdigits
  have hsigned : signed ((Nat.toDigits 10 n).dropWhile isSpace) = (1, Nat.toDigits 10 n) := by
    obtain ⟨d, ds, hds⟩ := List.exists_cons_of_ne_nil (Nat.toDigits_ne_nil (b := 10) (n := n))
    have hd : d.isDigit = true := hdigits d (hds ▸ List.mem_cons_self)
    have hne : ∀ c : Char, c.isDigit = false → d ≠ c := by
      rintro c hc rfl
      rw [hd] at hc
      cases hc
    have hspace : isSpace d = false := by
      simp [isSpace, hne]
    rw [hds, List.dropWhile_cons_of_neg (by simp [hspace])]
    unfold signed
    split
    next heq => exact absurd (List.cons.inj heq).1 (hne '-' rfl)
    next heq => exact absurd (List.cons.inj heq).1 (hne '+' rfl)
    next => rfl
  rw [number]
  simp only [hsigned, hleading, List.drop_length, List.append_nil, natOfDigits_toDigits]
  simp

theorem Info.HasShape.rows_eq {info : Info} {shape : Shape} (h : info.HasShape shape) :
    info.rows = shape.nrows := by
  obtain ⟨nrows, hnrows, hnumber⟩ := h.nrows
  rw [Info.rows, hnrows, Option.getD_some, hnumber]

theorem Info.HasShape.cols_eq {info : Info} {shape : Shape} (h : info.HasShape shape) :
    info.cols = shape.ncols := by
  obtain ⟨ncols, hncols, hnumber⟩ := h.ncols
  rw [Info.cols, hncols, Option.getD_some, hnumber]

theorem histDimensionsMatch_ok {info₁ info₂ : Info} {type₁ type₂ : Text} {nrows ncols : ℚ}
    (h₁ : info₁.HasShape ⟨type₁, nrows, ncols, rlabels, clabels⟩)
    (h₂ : info₂.HasShape ⟨type₂, nrows, ncols, rlabels, clabels⟩) :
    histDimensionsMatch info₁ info₂ = .ok () := by
  have hrows : ¬ info₁.rows ≠ info₂.rows := not_not_intro (h₁.rows_eq.trans h₂.rows_eq.symm)
  have hcols : ¬ info₁.cols ≠ info₂.cols := not_not_intro (h₁.cols_eq.trans h₂.cols_eq.symm)
  rw [histDimensionsMatch, h₁.rlabels, h₂.rlabels, h₁.clabels, h₂.clabels]
  simp only [if_neg hrows, if_neg hcols, orUndefined]
  simp [pure, bind, Except.pure, Except.bind]

/-- A new parameter of another size than 1 by 1. -/
theorem addNewParam_eq (hnew : s.paraminfo newParam = none) {nrows ncols : Text}
    (hsize : ¬ (number nrows = 1 ∧ number ncols = 1)) {rlabels clabels : List Text} :
    s.addNewParam newParam (some nrows) (some ncols) rlabels clabels = .ok { s with
      params := some (s.params.getD [] ++ [newParam])
      paraminfo := Function.update s.paraminfo newParam
        (some ⟨"histogram".toList, some nrows, some ncols, some rlabels, some clabels⟩) } := by
  rw [Stored.addNewParam, hnew]
  simp only [Option.getD_some, if_neg hsize]

/-- The search for the parameters succeeds, and the loops fill the new one. -/
theorem combine_eq_build (h : Vectors s newParam comb rlabels clabels) : ∃ prev type,
    s.combine newParam comb = s.build newParam comb prev rlabels clabels ∧
      prev.HasShape ⟨type, rlabels.length, clabels.length, rlabels, clabels⟩ := by
  obtain ⟨first, second, rest, rfl⟩ : ∃ first second rest, comb = first :: second :: rest := by
    match comb, h.two with
    | first :: second :: rest, _ => exact ⟨first, second, rest, rfl⟩
  have hinfo : ∀ param ∈ first :: second :: rest, ∃ type, (s.info param).HasShape
      ⟨type, rlabels.length, clabels.length, rlabels, clabels⟩ := by
    intro param hparam
    obtain ⟨info, type, hsome, hshape⟩ := h.info param hparam
    refine ⟨type, ?_⟩
    rw [Stored.info, hsome, Option.getD_some]
    exact hshape
  obtain ⟨type, hfirst⟩ := hinfo first List.mem_cons_self
  have hmatch : ∀ params : List Text, (∀ param ∈ params, param ∈ first :: second :: rest) →
      (params.forM fun param => histDimensionsMatch (s.info param) (s.info first)) = .ok () := by
    intro params
    induction params with
    | nil => exact fun _ => rfl
    | cons param params ih =>
      intro hmem
      obtain ⟨hparam, hparams⟩ := List.forall_mem_cons.mp hmem
      obtain ⟨type', hshape⟩ := hinfo param hparam
      change (histDimensionsMatch (s.info param) (s.info first) >>= fun _ => _) = _
      rw [histDimensionsMatch_ok hshape hfirst]
      exact ih hparams
  have hone : ¬ ((s.info first).rows > 1 ∧ (s.info first).cols > 1) := by
    rw [hfirst.rows_eq, hfirst.cols_eq]
    rintro ⟨hrows, hcols⟩
    rcases h.vector with hlength | hlength
    · simp [hlength] at hrows
    · simp [hlength] at hcols
  refine ⟨s.info first, type, ?_, hfirst⟩
  unfold Stored.combine
  rw [if_neg h.extracted]
  simp only [hfirst.rlabels, hfirst.clabels, orUndefined]
  change (if _ then _ else (second :: rest).forM _ >>= fun _ => _) = _
  rw [if_neg hone, hmatch _ fun param hparam => List.mem_cons_of_mem first hparam]
  rfl

theorem build_eq (h : Vectors s newParam comb rlabels clabels) {prev : Info} {type : Text}
    (hprev : prev.HasShape ⟨type, rlabels.length, clabels.length, rlabels, clabels⟩) : ∃ s',
    s.build newParam comb prev rlabels clabels = .ok s' ∧
      s'.data = (s.fill newParam (filling comb rlabels clabels).rows
        (filling comb rlabels clabels).cols (filling comb rlabels clabels).source).data ∧
      s'.params = s.params.map (· ++ [newParam]) ∧
      ∃ info, s'.paraminfo newParam = some info ∧ info.HasShape
        ⟨"histogram".toList, (filling comb rlabels clabels).rows.length,
          (filling comb rlabels clabels).cols.length, (filling comb rlabels clabels).rows,
          (filling comb rlabels clabels).cols⟩ := by
  obtain ⟨nrows, hnrows, hrows⟩ := hprev.nrows
  obtain ⟨ncols, hncols, hcols⟩ := hprev.ncols
  obtain ⟨params, hparams⟩ := Option.ne_none_iff_exists'.mp h.extracted
  have htwo := h.two
  have hcount : number (Nat.toDigits 10 comb.length) ≠ 1 := by
    rw [number_toDigits]
    exact_mod_cast (by omega : comb.length ≠ 1)
  rw [Stored.build, hprev.rows_eq, hprev.cols_eq, filling, hnrows, hncols]
  simp only [Nat.cast_eq_one, gt_iff_lt, Nat.one_lt_cast]
  have hstored : ∀ (m : Matrix) {nrows ncols : Text}, number nrows = m.rows.length →
      number ncols = m.cols.length → ¬ (number nrows = 1 ∧ number ncols = 1) → ∃ s',
      (s.fill newParam m.rows m.cols m.source).addNewParam newParam (some nrows) (some ncols)
        m.rows m.cols = .ok s' ∧
      s'.data = (s.fill newParam m.rows m.cols m.source).data ∧
      s'.params = s.params.map (· ++ [newParam]) ∧
      ∃ info, s'.paraminfo newParam = some info ∧ info.HasShape
        ⟨"histogram".toList, m.rows.length, m.cols.length, m.rows, m.cols⟩ := by
    intro m nrows ncols hnrows hncols hsize
    have hnew : (s.fill newParam m.rows m.cols m.source).paraminfo newParam = none := h.isNew
    refine ⟨_, addNewParam_eq hnew hsize, rfl, ?_, _, Function.update_self .., ?_⟩
    · rw [hparams]
      change some ((s.params.getD []) ++ [newParam]) = _
      rw [hparams]
      rfl
    · exact ⟨rfl, ⟨nrows, rfl, hnrows⟩, ⟨ncols, rfl, hncols⟩, rfl, rfl⟩
  split_ifs with hscalar hcolumn
  · have hrow : number ['1'] = ([zero] : List Text).length := by decide +kernel
    exact hstored ⟨[zero], comb, _⟩ hrow (number_toDigits _) fun hsize => hcount hsize.2
  · exact hstored ⟨rlabels, comb, _⟩ hrows (number_toDigits _) fun hsize => hcount hsize.2
  · exact hstored ⟨comb, clabels, _⟩ (number_toDigits _) hcols fun hsize => hcount hsize.1

/-! ### What is in the new parameter -/

theorem mem_targets {s : Stored} {newParam : Text} {rows cols : List Text} {k : Place} :
    k ∈ s.targets newParam rows cols ↔ k.exp ∈ s.experiments ∧ k.bm ∈ s.benchmarks ∧
      k.path = newParam ∧ k.row ∈ rows ∧ k.col ∈ cols := by
  obtain ⟨exp, bm, path, row, col⟩ := k
  simp only [Stored.targets, List.mem_flatMap, List.mem_map, Place.mk.injEq]
  constructor
  · rintro ⟨_, hexp, _, hbm, _, hrow, _, hcol, rfl, rfl, rfl, rfl, rfl⟩
    exact ⟨hexp, hbm, rfl, hrow, hcol⟩
  · rintro ⟨hexp, hbm, rfl, hrow, hcol⟩
    exact ⟨exp, hexp, bm, hbm, row, hrow, col, hcol, rfl, rfl, rfl, rfl, rfl⟩

/-- The parameters are not the new one. -/
theorem Vectors.ne_new (h : Vectors s newParam comb rlabels clabels) {param : Text}
    (hparam : param ∈ comb) : param ≠ newParam := by
  rintro rfl
  obtain ⟨info, type, hsome, -⟩ := h.info param hparam
  rw [h.isNew] at hsome
  cases hsome

/-- Every source is read as it was before the loops. -/
theorem read_fill (h : Vectors s newParam comb rlabels clabels) {exp bm row col : Text}
    (hexp : exp ∈ s.experiments) (hbm : bm ∈ s.benchmarks)
    (hrow : row ∈ (filling comb rlabels clabels).rows)
    (hcol : col ∈ (filling comb rlabels clabels).cols) :
    (s.fill newParam (filling comb rlabels clabels).rows (filling comb rlabels clabels).cols
      (filling comb rlabels clabels).source).data.read ⟨exp, bm, newParam, row, col⟩ =
      s.data.read ((filling comb rlabels clabels).source ⟨exp, bm, newParam, row, col⟩) := by
  have hmem : (⟨exp, bm, newParam, row, col⟩ : Place) ∈ s.targets newParam
      (filling comb rlabels clabels).rows (filling comb rlabels clabels).cols :=
    mem_targets.mpr ⟨hexp, hbm, rfl, hrow, hcol⟩
  have hfix : ∀ k ∈ s.targets newParam (filling comb rlabels clabels).rows
      (filling comb rlabels clabels).cols, (filling comb rlabels clabels).source k ∈
        s.targets newParam (filling comb rlabels clabels).rows
          (filling comb rlabels clabels).cols →
        (filling comb rlabels clabels).source ((filling comb rlabels clabels).source k) =
          (filling comb rlabels clabels).source k := by
    intro k hk hsource
    obtain ⟨-, -, -, -, hk⟩ := mem_targets.mp hk
    obtain ⟨-, -, hpath, -⟩ := mem_targets.mp hsource
    unfold filling at hk hpath ⊢
    split_ifs at hk hpath ⊢
    · exact absurd hpath (h.ne_new hk)
    · exact absurd hpath (h.ne_new hk)
    · rfl
  have hread := Data.copier.read_copyAll (filling comb rlabels clabels).source hfix s.data
    ⟨exp, bm, newParam, row, col⟩
  rw [if_pos hmem] at hread
  exact hread

/-- `COMBINE` stores the matrix exactly if the parameters are of the kinds that it can handle. -/
theorem combine_storesMatrix_iff (h : Vectors s newParam comb rlabels clabels) :
    (∃ s', s.combine newParam comb = .ok s' ∧
      StoresMatrix s s' newParam (matrix comb rlabels clabels)) ↔
      CombinesRight s comb rlabels clabels := by
  obtain ⟨prev, type, hcombine, hprev⟩ := combine_eq_build h
  obtain ⟨s', hbuild, hdata, hparams, info, hinfo, hshape⟩ := build_eq h hprev
  have hunique : (∃ s', s.combine newParam comb = .ok s' ∧
      StoresMatrix s s' newParam (matrix comb rlabels clabels)) ↔
      StoresMatrix s s' newParam (matrix comb rlabels clabels) := by
    rw [hcombine.trans hbuild]
    constructor
    · rintro ⟨s'', hs'', hstores⟩
      exact Except.ok.inj hs'' ▸ hstores
    · exact fun hstores => ⟨s', rfl, hstores⟩
  -- The labels of the new parameter are those of the loops.
  have hstores : ∀ m : Matrix, m.rows = (filling comb rlabels clabels).rows →
      m.cols = (filling comb rlabels clabels).cols → (StoresMatrix s s' newParam m ↔
        ∀ exp ∈ s.experiments, ∀ bm ∈ s.benchmarks, ∀ row ∈ m.rows, ∀ col ∈ m.cols,
          s.data.read ((filling comb rlabels clabels).source ⟨exp, bm, newParam, row, col⟩) =
            s.data.read (m.source ⟨exp, bm, newParam, row, col⟩)) := by
    intro m hrows hcols
    have hregistered : (∃ info, s'.paraminfo newParam = some info ∧ info.HasShape
        ⟨"histogram".toList, m.rows.length, m.cols.length, m.rows, m.cols⟩) :=
      ⟨info, hinfo, by rw [hrows, hcols]; exact hshape⟩
    rw [StoresMatrix, and_iff_right hregistered, and_iff_right hparams]
    refine forall₂_congr fun exp hexp => forall₂_congr fun bm hbm =>
      forall₂_congr fun row hrow => forall₂_congr fun col hcol => ?_
    rw [hdata, read_fill h hexp hbm (hrows ▸ hrow) (hcols ▸ hcol)]
  rw [hunique]
  by_cases hscalar : rlabels.length = 1 ∧ clabels.length = 1
  · rw [CombinesRight, if_pos hscalar, matrix, if_pos hscalar,
      hstores _ (by simp [filling, hscalar]) (by simp [filling, hscalar]), filling,
      if_pos hscalar]
    simp only [List.forall_mem_singleton]
  · by_cases hcolumn : clabels.length = 1
    · rw [CombinesRight, if_neg hscalar, if_pos hcolumn, matrix, if_neg hscalar, if_pos hcolumn]
      cases hlabels : rlabels with
      | nil =>
        -- Empty columns are registered as rows.
        refine iff_of_false ?_ (fun hne => hne rfl)
        rintro ⟨⟨info', hinfo', hshape'⟩, -⟩
        obtain rfl := Option.some.inj (hinfo.symm.trans hinfo')
        have hcomb : (filling comb rlabels clabels).rows = comb := by
          rw [filling, if_neg hscalar, if_neg (by simp [hlabels])]
        have hnil : comb = [] :=
          hcomb ▸ Option.some.inj (hshape.rlabels.symm.trans hshape'.rlabels)
        have htwo := h.two
        rw [hnil, List.length_nil] at htwo
        omega
      | cons row rows =>
        have hlong : 1 < rlabels.length := by
          have hlength : rlabels.length = rows.length + 1 := by rw [hlabels, List.length_cons]
          have hne : rlabels.length ≠ 1 := fun hone => hscalar ⟨hone, hcolumn⟩
          omega
        have hfilling : filling comb rlabels clabels = ⟨rlabels, comb, fun k =>
            ⟨k.exp, k.bm, k.col, k.row, clabels.headD []⟩⟩ := by
          rw [filling, if_neg hscalar, if_pos hlong]
        rw [← hlabels, hstores _ (by rw [hfilling]) (by rw [hfilling]), hfilling]
        exact iff_of_true (fun _ _ _ _ _ _ _ _ => rfl) (by simp [hlabels])
    · have hrow : rlabels.length = 1 := h.vector.resolve_right hcolumn
      have hshort : ¬ 1 < rlabels.length := by omega
      have hfilling : filling comb rlabels clabels = ⟨comb, clabels, fun k =>
          ⟨k.exp, k.bm, k.col, rlabels.headD [], k.col⟩⟩ := by
        rw [filling, if_neg hscalar, if_neg hshort]
      rw [CombinesRight, if_neg hscalar, if_neg hcolumn, matrix, if_neg hscalar, if_neg hcolumn,
        hstores _ (by rw [hfilling]) (by rw [hfilling]), hfilling]

end

/-! ### Two parameters -/

/-- The parameters `p` and `q` of one experiment and benchmark, with a value for each of their rows
and columns. -/
def twoParams (info : Info) : Stored where
  data exp bm path :=
    if exp = ['e'] ∧ bm = ['b'] ∧ (path = ['p'] ∨ path = ['q']) then
      some fun row col => some (path ++ row ++ col)
    else none
  paraminfo path := if path = ['p'] ∨ path = ['q'] then some info else none
  params := some [['p'], ['q']]
  experiments := [['e']]
  benchmarks := [['b']]

theorem vectors_twoParams {info : Info} {type : Text} {rlabels clabels : List Text}
    (hinfo : info.HasShape ⟨type, rlabels.length, clabels.length, rlabels, clabels⟩)
    (hvector : rlabels.length = 1 ∨ clabels.length = 1) :
    Vectors (twoParams info) ['n'] [['p'], ['q']] rlabels clabels where
  extracted := Option.some_ne_none _
  nodup := by decide
  two := by decide
  info param hparam := by
    refine ⟨info, type, ?_, hinfo⟩
    rcases List.mem_cons.mp hparam with rfl | hparam
    · rfl
    · obtain rfl := List.mem_singleton.mp hparam
      rfl
  vector := hvector
  isNew := rfl

theorem scalarInfo_hasShape :
    scalarInfo.HasShape ⟨"scalar".toList, [zero].length, [zero].length, [zero], [zero]⟩ :=
  ⟨rfl, ⟨_, rfl, by decide +kernel⟩, ⟨_, rfl, by decide +kernel⟩, rfl, rfl⟩

/-- Two scalars. -/
theorem combine_scalars : ∃ s', (twoParams scalarInfo).combine ['n'] [['p'], ['q']] = .ok s' ∧
    StoresMatrix (twoParams scalarInfo) s' ['n'] (matrix [['p'], ['q']] [zero] [zero]) := by
  refine (combine_storesMatrix_iff
    (vectors_twoParams scalarInfo_hasShape (Or.inl rfl))).mpr ?_
  rw [CombinesRight, if_pos ⟨rfl, rfl⟩]
  exact fun _ _ _ _ _ _ => rfl

def rowInfo : Info :=
  ⟨"histogram".toList, some ['1'], some ['2'], some [zero], some [['x'], ['y']]⟩

theorem rowInfo_hasShape : rowInfo.HasShape
    ⟨"histogram".toList, [zero].length, [['x'], ['y']].length, [zero], [['x'], ['y']]⟩ :=
  ⟨rfl, ⟨_, rfl, by decide +kernel⟩, ⟨_, rfl, by decide +kernel⟩, rfl, rfl⟩

/-- Two row vectors: the entry of `p` in the column `x` is not defined, since there is no parameter
`x`. -/
theorem not_combine_rows :
    Vectors (twoParams rowInfo) ['n'] [['p'], ['q']] [zero] [['x'], ['y']] ∧
      ¬ ∃ s', (twoParams rowInfo).combine ['n'] [['p'], ['q']] = .ok s' ∧
        StoresMatrix (twoParams rowInfo) s' ['n']
          (matrix [['p'], ['q']] [zero] [['x'], ['y']]) := by
  refine ⟨vectors_twoParams rowInfo_hasShape (Or.inl rfl), ?_⟩
  rintro ⟨s', hs', -, -, hread⟩
  have hundefined : ((twoParams rowInfo).combine ['n'] [['p'], ['q']]).toOption.map
      (fun s' => s'.data.read ⟨['e'], ['b'], ['n'], ['p'], ['x']⟩) = some none := by
    decide +kernel
  have hnone : s'.data.read ⟨['e'], ['b'], ['n'], ['p'], ['x']⟩ = none := by
    rw [hs'] at hundefined
    exact Option.some.inj hundefined
  have hvalue := hread ['e'] List.mem_cons_self ['b'] List.mem_cons_self ['p'] List.mem_cons_self
    ['x'] List.mem_cons_self
  rw [hnone] at hvalue
  exact absurd hvalue (by decide)

end Awb.Stats
