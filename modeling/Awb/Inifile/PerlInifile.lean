import Awb.Inifile.Lines
import Mathlib.Data.List.AList

/-! The object `Asim::Inifile`: its data, how `open` reads them, and the calls that change them. A
later item replaces an earlier one. -/

namespace Awb.Inifile

/-- A group; an item that was removed is there without a value. -/
abbrev Group := AList fun _ : Text => Option Text

/-- The groups; one that was removed is there without items. -/
abbrev Data := AList fun _ : Text => Option Group

namespace Perl

/-- What Perl takes for false. -/
def falsy (str : Text) : Bool := str = [] || str = ['0']

/-- `$include_regexp`, which does not ask for a closing quote. -/
def includeName (line : Text) : Option Text :=
  match matchIncludeStart line with
  | none => none
  | some rest =>
    let name := rest.takeWhile (· ≠ '"')
    if name = [] then none else some name

/-- A line against the regular expressions, in the order of `open` and `save`. Unlike in
`inifile.cpp` the names of groups and items are not empty. -/
def lineKind (line : Text) : LineKind :=
  match (matchGroup line).filter (· ≠ []) with
  | some name => .group name
  | none => match (matchItem line).filter (·.1 ≠ []) with
    | some (name, value) => .item name value
    | none => match includeName line with
      | some name => .includes name
      | none =>
        let rest := line.dropWhile isBlank
        if rest.head? = some '#' ∨ rest.head? = some ';' then .comment
        else if rest = [] then .blank
        else .garbage

section lineKind
variable {line name value : Text}

theorem lineKind_eq_group (h : lineKind line = .group name) :
    matchGroup line = some name ∧ name ≠ [] := by
  unfold lineKind at h
  split at h
  · rename_i name' heq
    obtain rfl := LineKind.group.inj h
    simpa using Option.filter_eq_some_iff.mp heq
  · split at h
    · simp at h
    · split at h
      · simp at h
      · dsimp only at h
        split at h
        · simp at h
        · split at h <;> simp at h

theorem lineKind_eq_item (h : lineKind line = .item name value) :
    matchItem line = some (name, value) ∧ name ≠ [] := by
  unfold lineKind at h
  split at h
  · simp at h
  · split at h
    · rename_i name' value' heq
      obtain ⟨rfl, rfl⟩ := LineKind.item.inj h
      simpa using Option.filter_eq_some_iff.mp heq
    · split at h
      · simp at h
      · dsimp only at h
        split at h
        · simp at h
        · split at h <;> simp at h

end lineKind

end Perl

namespace Data

/-- The items of a group, none if there is no such group. -/
def items (d : Data) (group : Text) : Group := ((d.lookup group).join).getD ∅

/-- The value of an item, whatever the names are. -/
def value (d : Data) (group item : Text) : Option Text := ((d.items group).lookup item).join

/-- `$data->{group}{item} = value`, which makes the group if need be. -/
def set (d : Data) (group item : Text) (value : Option Text) : Data :=
  d.insert group (some ((d.items group).insert item value))

/-- A group that is looked into is there afterwards. -/
def vivify (d : Data) (group : Text) : Data :=
  match (d.lookup group).join with
  | some _ => d
  | none => d.insert group (some ∅)

def hasGroup (d : Data) (group : Text) : Bool := (d.lookup group).join.isSome

variable {d : Data} {group group' item item' : Text} {v : Option Text}

@[simp] theorem items_insert (items : Group) :
    Data.items (AList.insert group (some items) d) group = items := by
  simp [Data.items]

theorem items_insert_ne (h : group' ≠ group) (items : Option Group) :
    Data.items (AList.insert group items d) group' = Data.items d group' := by
  simp [Data.items, AList.lookup_insert_ne h]

theorem value_set : (d.set group item v).value group' item' =
    if group' = group ∧ item' = item then v else d.value group' item' := by
  unfold Data.set Data.value
  by_cases hg : group' = group
  · subst hg
    by_cases hi : item' = item
    · subst hi
      simp
    · simp [hi, AList.lookup_insert_ne hi]
  · simp [hg, items_insert_ne hg]

theorem items_set : (d.set group item v).items group' =
    if group' = group then (d.items group).insert item v else d.items group' := by
  unfold Data.set
  by_cases hg : group' = group
  · subst hg
    simp
  · rw [items_insert_ne hg, if_neg hg]

theorem mem_set : group' ∈ d.set group item v ↔ group' = group ∨ group' ∈ d := AList.mem_insert d

@[simp] theorem items_vivify : (d.vivify group).items group' = d.items group' := by
  unfold Data.vivify
  split
  · rfl
  · rename_i hnone
    by_cases hg : group' = group
    · subst hg
      simp [Data.items, hnone]
    · exact items_insert_ne hg _

@[simp] theorem value_vivify : (d.vivify group).value group' item = d.value group' item := by
  rw [Data.value, items_vivify, Data.value]

theorem mem_of_hasGroup (h : d.hasGroup group = true) : group ∈ d := by
  obtain ⟨items, hitems⟩ := Option.isSome_iff_exists.mp h
  exact AList.lookup_isSome.mp (Option.isSome_of_mem (Option.join_eq_some_iff.mp hitems))

theorem items_of_not_hasGroup (h : ¬ d.hasGroup group = true) : d.items group = ∅ := by
  have hnone : (d.lookup group).join = none := by simpa [Data.hasGroup] using h
  rw [Data.items, hnone, Option.getD_none]

theorem mem_vivify : group' ∈ d.vivify group ↔ group' = group ∨ group' ∈ d := by
  unfold Data.vivify
  split
  · rename_i items hitems
    have hmem : group ∈ d := mem_of_hasGroup (by rw [Data.hasGroup, hitems]; rfl)
    exact ⟨Or.inr, fun h => h.elim (fun he => he ▸ hmem) id⟩
  · exact AList.mem_insert d

theorem hasGroup_vivify (h : d.hasGroup group' = true) : (d.vivify group).hasGroup group' = true := by
  unfold Data.vivify
  split
  · exact h
  · rename_i hnone
    have hne : group' ≠ group := by
      rintro rfl
      rw [Data.hasGroup, hnone] at h
      simp at h
    rw [Data.hasGroup, AList.lookup_insert_ne hne]
    exact h

end Data

namespace Perl

/-- The loop of `open`: the text of continued lines, the current group, and the data. -/
structure State where
  more : Text := []
  curgroup : Option Text := none
  data : Data

/-- `s/^[ \t]+/ /` -/
def squeezeBlanks (line : Text) : Text :=
  if line.head?.any isBlank then ' ' :: line.dropWhile isBlank else line

/-- A line that is continued, without its backslash and the blanks before it. -/
def stripContinuation (line : Text) : Text := line.dropLast.rdropWhile isBlank

def openLine (openFile : Text → Data → Option Data) (s : State) (raw : Text) : Option State :=
  let line := chomp raw
  if line.getLast? = some '\\' then
    some { s with more := s.more ++ stripContinuation (squeezeBlanks line) }
  else
    let s' : State := { s with more := [] }
    match lineKind (s.more ++ squeezeBlanks line) with
    | .group name => some { s' with curgroup := some name }
    | .item name value =>
      some { s' with data := s.data.set (s.curgroup.getD []) name (some value) }
    | .includes name => do
      let data ← openFile name s.data
      return { s' with data }
    | .comment | .blank => some s'
    | .garbage => none

/-- A line that is passed over, alone or after what is continued. -/
theorem openLine_of_skips {openFile : Text → Data → Option Data} {s : State} {raw : Text}
    (hline : (chomp raw).getLast? ≠ some '\\')
    (h : (lineKind (s.more ++ squeezeBlanks (chomp raw))).skips = true) :
    openLine openFile s raw = some { s with more := [] } := by
  unfold openLine
  simp only [if_neg hline]
  cases hk : lineKind (s.more ++ squeezeBlanks (chomp raw)) <;> simp_all [LineKind.skips]

variable {Dir : Type*} (fs : FileSystem Dir)

/-- The white space that the two-argument `open` strips from a name. -/
def isSpace (c : Char) : Bool := "\t\n\x0b\x0c\r ".toList.contains c

/-- The name of the file that a two-argument `open` opens. -/
def openName (file : Text) : Text := (file.dropWhile isSpace).rdropWhile isSpace

/-- `CORE::open(M, "< $file")` -/
def readFile (dir : Dir) (file : Text) : Option Text :=
  if openName file = ['-'] then some fs.stdin else fs.read dir (openName file)

/-- `open`, with a bound for the depth of includes; all names are relative to one directory. -/
def openFile (dir : Dir) : Nat → Text → Data → Option Data
  | 0, _, _ => none
  | depth + 1, file, data => do
    let text ← readFile fs dir file
    let s ← (rawLines text).foldlM (openLine (openFile dir depth)) { data }
    return s.data

/-- `get` of an item. -/
def get (d : Data) (group item : Text) : Option Text :=
  if falsy group then none else d.value group item

end Perl

end Awb.Inifile
