import Awb.Builder.Paths
import Awb.Lib.Grouping

/-! The matrices of source files and of generated files of a module: each row lists the files of a
type and a visibility. -/

namespace Awb.ModuleTree

scoped instance textOfString : Coe String Text := ⟨String.toList⟩

/-! ### The types of files -/

def knownTypes : List Text :=
  ["BDPI_C", "BDPI_H", "BSV", "BSH", "CPP", "DICT", "H", "NGC", "PACK", "PRJ", "RRR", "UCF", "UT",
    "VHD", "XST"].map String.toList

def isKnownType (specType : Text) : Bool := knownTypes.contains specType

/-- The ends of file names in the order of their tests, with their types. -/
def extensions : List (Text × Text) :=
  [("bsv", "BSV"), ("bsh", "BSH"), (".c", "CPP"), (".cpp", "CPP"), (".dic", "DICT"), (".h", "H"),
    (".H", "H"), (".ngc", "NGC"), (".pack", "PACK"), (".prj", "PRJ"), (".rrr", "RRR"),
    (".ucf", "UCF"), (".ut", "UT"), (".v", "VERILOG"), (".vhd", "VHD"), (".xst", "XST")]

/-- A text that ends so, with a character in front that is no newline. -/
def endsBehindChar (ending text : Text) : Bool :=
  ending.isSuffixOf text &&
    (text.take (text.length - ending.length)).getLast?.any (· ≠ '\n')

/-- The same, where a newline may follow at the end, as `$` allows it. -/
def matchesEnd (ending text : Text) : Bool :=
  endsBehindChar ending text ||
    text.getLast? = some '\n' && endsBehindChar ending text.dropLast

def decipherTypeFromExtension (filename : Text) : Text :=
  ((extensions.find? fun row => matchesEnd row.1 filename).map Prod.snd).getD []

/-! ### The rows -/

/-- `Asim::Module::Source`. -/
structure Source where
  filelist : List Text
  attributes : List (Text × Text)

/-- `Asim::Module::SourceList`. -/
structure SourceList where
  type : Text
  visibility : Text
  filelist : List Source

def SourceList.addfile (slist : SourceList) (file : Source) : SourceList :=
  { slist with filelist := slist.filelist ++ [file] }

/-- The names of the files of a row. -/
def SourceList.names (slist : SourceList) : List Text := slist.filelist.flatMap Source.filelist

/-- `getfileobjects`, in which `*` stands for any type or visibility. -/
def getfileobjects (type vis : Text) (matrix : List SourceList) : List Source :=
  matrix.flatMap fun slist =>
    if (type = "*".toList ∨ slist.type = type) ∧ (vis = "*".toList ∨ slist.visibility = vis) then
      slist.filelist
    else []

def getfilelist (type vis : Text) (matrix : List SourceList) : List Text :=
  (getfileobjects type vis matrix).flatMap Source.filelist

/-- The variables of `addfilematrix`: the matrix, the index of the last row, and what it prints. -/
structure AddFiles where
  matrix : List SourceList
  lastSlist : Option ℕ := none
  errors : List Text := []

/-- The type of a file: that of its extension, unless another one is given and may replace it. -/
def fileType (specType f : Text) : Text :=
  let type := decipherTypeFromExtension f
  if isKnownType specType then
    if specType ≠ type ∧ (specType = "BDPI_C".toList ∧ type = "CPP".toList ∨
        specType = "BDPI_H".toList ∧ type = "H".toList) then specType
    else type
  else if specType ≠ [] then specType
  else type

/-- What is printed about a file; it is added all the same. -/
def fileErrors (specType vis : Text) (requireType : Bool) (f : Text) : List Text :=
  let implicit := decipherTypeFromExtension f
  (if isKnownType specType ∧ specType ≠ fileType specType f then
    ["For file " ++ f ++ " specified type (" ++ specType ++ ") does not match implicit type (" ++
      implicit ++ ")\n"] else []) ++
  (if requireType ∧ fileType specType f = [] then
    ["Type of file " ++ f ++ " not specified\n"] else []) ++
  (if vis = [] then ["Visibility of file " ++ f ++ " not specified\n"]
  else if vis ≠ "PUBLIC".toList ∧ vis ≠ "PRIVATE".toList then
    ["Unrecognized visibility of file " ++ f ++ " (" ++ vis ++ ")\n"]
  else [])

/-- A row of a type and a visibility. -/
def SourceList.isOf (type vis : Text) (slist : SourceList) : Bool :=
  slist.type = type && slist.visibility = vis

/-- One round of the loop of `addfilematrix`: the last row, another one, or a new one. -/
def AddFiles.add (specType vis : Text) (requireType : Bool) (attributes : List (Text × Text))
    (s : AddFiles) (f : Text) : AddFiles :=
  let file : Source := { filelist := [f], attributes := attributes }
  let type := fileType specType f
  let errors := s.errors ++ fileErrors specType vis requireType f
  match s.lastSlist.filter fun i => s.matrix[i]?.any (SourceList.isOf type vis) with
  | some i => { s with matrix := s.matrix.modify i (·.addfile file), errors := errors }
  | none =>
    match s.matrix.findIdx? (SourceList.isOf type vis) with
    | some i =>
      { matrix := s.matrix.modify i (·.addfile file), lastSlist := some i, errors := errors }
    | none =>
      { matrix := s.matrix ++ [{ type := type, visibility := vis, filelist := [file] }]
        lastSlist := some s.matrix.length
        errors := errors }

def addfilematrix (specType vis : Text) (requireType : Bool) (attributes : List (Text × Text))
    (matrix : List SourceList) (infiles : List Text) : AddFiles :=
  infiles.foldl (AddFiles.add specType vis requireType attributes) { matrix := matrix }

/-! ### The module -/

/-- The two matrices of a module, and what was printed. -/
structure SourceMatrices where
  sourcematrix : List SourceList := []
  generatedmatrix : List SourceList := []
  errors : List Text := []

inductive SourceCall
  | addsources (specType vis : Text) (requireType : Bool) (attributes : List (Text × Text))
    (infiles : List Text)
  | addgenerated (specType : Text) (infiles : List Text)

def SourceMatrices.call (m : SourceMatrices) : SourceCall → SourceMatrices
  | .addsources specType vis requireType attributes infiles =>
    let s := addfilematrix specType vis requireType attributes m.sourcematrix infiles
    { m with sourcematrix := s.matrix, errors := m.errors ++ s.errors }
  | .addgenerated specType infiles =>
    let s := addfilematrix specType "PUBLIC" false [] m.generatedmatrix infiles
    { m with generatedmatrix := s.matrix, errors := m.errors ++ s.errors }

def SourceMatrices.sources (m : SourceMatrices) (type vis : Text) : List Text :=
  getfilelist type vis m.sourcematrix

def SourceMatrices.generated (m : SourceMatrices) (type : Text) : List Text :=
  getfilelist type "PUBLIC" m.generatedmatrix

/-! ### What was added -/

/-- The files of a call, each with its type and visibility. -/
def addedFiles (specType vis : Text) (infiles : List Text) : List ((Text × Text) × Text) :=
  infiles.map fun f => ((fileType specType f, vis), f)

def SourceCall.addedSources : SourceCall → List ((Text × Text) × Text)
  | addsources specType vis _ _ infiles => addedFiles specType vis infiles
  | addgenerated _ _ => []

def SourceCall.addedGenerated : SourceCall → List ((Text × Text) × Text)
  | addsources _ _ _ _ _ => []
  | addgenerated specType infiles => addedFiles specType "PUBLIC" infiles

def SourceList.key (slist : SourceList) : Text × Text := (slist.type, slist.visibility)

/-- A matrix lists the files that were added, in one row for each type and visibility. -/
structure ListsAdded (matrix : List SourceList) (added : List ((Text × Text) × Text)) : Prop where
  unique : (matrix.map SourceList.key).Nodup
  row : ∀ p ∈ added, ∃! slist, slist ∈ matrix ∧ slist.key = p.1
  count : ∀ slist ∈ matrix, ∀ f, slist.names.count f = added.count (slist.key, f)
  listed : ∀ type vis, type ≠ "*".toList → vis ≠ "*".toList →
    getfilelist type vis matrix = (added.filter fun p => p.1 = (type, vis)).map Prod.snd
  all : (getfilelist "*" "*" matrix).Perm (added.map Prod.snd)

/-- A row with its key and the names of its files. -/
def SourceList.row (slist : SourceList) : (Text × Text) × List Text := (slist.key, slist.names)

variable {matrix : List SourceList} {added : List ((Text × Text) × Text)} {s : AddFiles}
  {specType vis f : Text} {requireType : Bool} {attributes : List (Text × Text)}

theorem SourceList.row_addfile (slist : SourceList) :
    (slist.addfile { filelist := [f], attributes := attributes }).row =
      (slist.row.1, slist.row.2 ++ [f]) := by
  rw [row, row, names, addfile, List.flatMap_append, List.flatMap_singleton]
  rfl

theorem SourceList.isOf_iff {type vis : Text} {slist : SourceList} :
    slist.isOf type vis = true ↔ slist.row.1 = (type, vis) := by
  rw [isOf, Bool.and_eq_true, decide_eq_true_iff, decide_eq_true_iff]
  exact Prod.mk_inj.symm

/-- Whichever way its row is found, a file goes behind the others of its type and visibility. -/
theorem AddFiles.rows_add (hnodup : ((s.matrix.map SourceList.row).map Prod.fst).Nodup) :
    (s.add specType vis requireType attributes f).matrix.map SourceList.row =
      Grouping.add (fileType specType f, vis) f (s.matrix.map SourceList.row) := by
  have hmodify : ∀ i slist, s.matrix[i]? = some slist →
      slist.isOf (fileType specType f) vis = true →
      (s.matrix.modify i (·.addfile { filelist := [f], attributes := attributes })).map
        SourceList.row = Grouping.add (fileType specType f, vis) f (s.matrix.map SourceList.row) :=
    fun i slist hi hrow => Grouping.map_modify (fun slist => slist.row_addfile) hnodup hi
      (SourceList.isOf_iff.mp hrow)
  rw [AddFiles.add]
  split
  next i hlast =>
    obtain ⟨-, hrow⟩ := Option.filter_eq_some_iff.mp hlast
    obtain ⟨slist, hi, hrow⟩ := (Option.any_eq_true ..).mp hrow
    exact hmodify i slist hi hrow
  next =>
    split
    next i hfind =>
      obtain ⟨hi, hrow, -⟩ := List.findIdx?_eq_some_iff_getElem.mp hfind
      exact hmodify i _ (List.getElem?_eq_getElem hi) hrow
    next hfind =>
      rw [Grouping.add_of_not_mem, List.map_append]
      · rfl
      · intro hmem
        obtain ⟨row, hrow, hkey⟩ := List.mem_map.mp hmem
        obtain ⟨slist, hslist, rfl⟩ := List.mem_map.mp hrow
        have hnot := List.findIdx?_eq_none_iff.mp hfind slist hslist
        rw [SourceList.isOf_iff.mpr hkey] at hnot
        cases hnot

/-- The rows of a matrix are those of the files that were added. -/
abbrev RowsOf (matrix : List SourceList) (added : List ((Text × Text) × Text)) : Prop :=
  Grouping.Groups (matrix.map SourceList.row) added

/-- The loop over the files of a call. -/
theorem rowsOf_addfilematrix (h : RowsOf matrix added) (infiles : List Text) :
    RowsOf (addfilematrix specType vis requireType attributes matrix infiles).matrix
      (added ++ addedFiles specType vis infiles) := by
  have hloop : ∀ s : AddFiles, RowsOf s.matrix added →
      RowsOf (infiles.foldl (AddFiles.add specType vis requireType attributes) s).matrix
        (added ++ addedFiles specType vis infiles) := by
    clear h
    induction infiles generalizing added with
    | nil =>
      intro s hs
      rwa [addedFiles, List.map_nil, List.append_nil]
    | cons f infiles ih =>
      intro s hs
      have hf : RowsOf (s.add specType vis requireType attributes f).matrix
          (added ++ [((fileType specType f, vis), f)]) := by
        rw [RowsOf, AddFiles.rows_add hs.nodup]
        exact hs.add _ f
      have hrest := ih _ hf
      rwa [List.append_assoc] at hrest
  exact hloop { matrix := matrix } h

theorem getfilelist_all : getfilelist "*" "*" matrix =
    (matrix.map SourceList.row).flatMap Prod.snd := by
  rw [getfilelist, getfileobjects]
  induction matrix with
  | nil => rfl
  | cons slist matrix ih =>
    rw [List.flatMap_cons, List.flatMap_append, ih, if_pos ⟨.inl rfl, .inl rfl⟩]
    rfl

theorem getfilelist_row {type vis : Text} (htype : type ≠ "*".toList) (hvis : vis ≠ "*".toList) :
    getfilelist type vis matrix =
      ((matrix.map SourceList.row).filter fun row => row.1 = (type, vis)).flatMap Prod.snd := by
  rw [getfilelist, getfileobjects]
  induction matrix with
  | nil => rfl
  | cons slist matrix ih =>
    rw [List.flatMap_cons, List.flatMap_append, ih, List.map_cons]
    by_cases hrow : slist.row.1 = (type, vis)
    · obtain ⟨rfl, rfl⟩ := Prod.mk.inj hrow
      rw [if_pos ⟨.inr rfl, .inr rfl⟩, List.filter_cons_of_pos (by simpa using hrow)]
      rfl
    · have hnot : ¬ ((type = "*".toList ∨ slist.type = type) ∧
          (vis = "*".toList ∨ slist.visibility = vis)) := fun hboth =>
        hrow (Prod.ext (hboth.1.resolve_left htype) (hboth.2.resolve_left hvis))
      rw [if_neg hnot, List.filter_cons_of_neg (by simpa using hrow)]
      rfl

theorem RowsOf.listsAdded (h : RowsOf matrix added) : ListsAdded matrix added where
  unique := by
    have hnodup := h.nodup
    rwa [List.map_map] at hnodup
  row p hp := by
    obtain ⟨row, ⟨hrow, hkey⟩, -⟩ := h.existsUnique hp
    obtain ⟨slist, hslist, rfl⟩ := List.mem_map.mp hrow
    refine ⟨slist, ⟨hslist, hkey⟩, fun slist' hslist' => ?_⟩
    have hnodup := h.nodup
    rw [List.map_map] at hnodup
    exact List.inj_on_of_nodup_map hnodup hslist'.1 hslist (hslist'.2.trans hkey.symm)
  count slist hslist f := by
    have helements := h.elements slist.row (List.mem_map_of_mem hslist)
    change slist.names = _ at helements
    rw [helements, List.count, List.countP_map, List.countP_filter]
    refine List.countP_congr fun p _ => ?_
    obtain ⟨key, name⟩ := p
    by_cases hkey : key = slist.key
    · simp [SourceList.row, hkey]
    · simp [SourceList.row, hkey]
  listed type vis htype hvis := by
    rw [getfilelist_row htype hvis]
    exact h.flatMap_filter (type, vis)
  all := by
    rw [getfilelist_all]
    exact h.perm

/-- After any calls each matrix lists what was added to it, and a call changes one of them only. -/
theorem listsAdded_calls (calls : List SourceCall) :
    ListsAdded (calls.foldl SourceMatrices.call {}).sourcematrix
        (calls.flatMap SourceCall.addedSources) ∧
      ListsAdded (calls.foldl SourceMatrices.call {}).generatedmatrix
        (calls.flatMap SourceCall.addedGenerated) ∧
      ∀ m : SourceMatrices,
        (∀ specType vis requireType attributes infiles,
          (m.call (.addsources specType vis requireType attributes infiles)).generatedmatrix =
            m.generatedmatrix) ∧
        ∀ specType infiles,
          (m.call (.addgenerated specType infiles)).sourcematrix = m.sourcematrix := by
  have hrun : RowsOf (calls.foldl SourceMatrices.call {}).sourcematrix
        (calls.flatMap SourceCall.addedSources) ∧
      RowsOf (calls.foldl SourceMatrices.call {}).generatedmatrix
        (calls.flatMap SourceCall.addedGenerated) := by
    induction calls using List.reverseRecOn with
    | nil => exact ⟨.nil, .nil⟩
    | append_singleton calls call ih =>
      obtain ⟨hsources, hgenerated⟩ := ih
      rw [List.foldl_concat, List.flatMap_append, List.flatMap_append, List.flatMap_singleton,
        List.flatMap_singleton]
      cases call with
      | addsources specType vis requireType attributes infiles =>
        refine ⟨rowsOf_addfilematrix hsources infiles, ?_⟩
        rw [SourceCall.addedGenerated, List.append_nil]
        exact hgenerated
      | addgenerated specType infiles =>
        refine ⟨?_, rowsOf_addfilematrix hgenerated infiles⟩
        rw [SourceCall.addedSources, List.append_nil]
        exact hsources
  exact ⟨hrun.1.listsAdded, hrun.2.listsAdded, fun m =>
    ⟨fun _ _ _ _ _ => rfl, fun _ _ => rfl⟩⟩

end Awb.ModuleTree
