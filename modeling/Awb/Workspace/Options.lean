import Awb.Inifile.Names
import Awb.Workspace.ExpandPath

/-! The lookup of an option in `awb.config`, in the user's rc file and in the global one. Both
`get_option` and `Rcfile::get` end a search at the first value that is defined, and only then test
whether it is empty. -/

namespace Awb
open Inifile

/-- An ini file that was read. -/
def LoadedInifile := { data : Inifile.Data // Perl.WellFormed data }

namespace LoadedInifile

/-- `Asim::Inifile->new($file)` -/
def new {Dir : Type*} (fs : FileSystem Dir) (dir : Dir) (depth : Nat) (file : Text) :
    Option LoadedInifile :=
  (Perl.openFile fs dir depth file ∅).pmap Subtype.mk
    fun _ h => Perl.wellFormed_openFile depth Perl.wellFormed_empty h

def get (inifile : LoadedInifile) (group item : Text) : Option Text :=
  Perl.get inifile.1 group item

/-- The value of an item of a group; what stands in front of all groups is in none. -/
def valueIn (inifile : LoadedInifile) (group item : Text) : Option Text :=
  if group = [] then none else inifile.1.value group item

end LoadedInifile

/-- What `Rcfile::open` meets at the name of the user's rc file. One that is missing is made, and
then it is read as an empty one. -/
inductive UserRc
  | read (inifile : LoadedInifile)
  | unreadable
  | cannotBeMade

/-- The object `Asim::Rcfile`, in which an ini file may be undefined. -/
structure Rcfile where
  inifile : Option LoadedInifile
  inifile2 : Option LoadedInifile

namespace Rcfile

/-- `open`, of the user's rc file and the global one. -/
def openFiles : UserRc → Option LoadedInifile → Option Rcfile
  | .read inifile, inifile2 => some ⟨some inifile, inifile2⟩
  | .unreadable, inifile2 => some ⟨none, inifile2⟩
  | .cannotBeMade, _ => none

/-- `get`, which dies where it calls a method of an undefined object. -/
def get (rcfile : Rcfile) (grouplist item : Text) : Option (Option Text) :=
  let groups := perlSplit ',' grouplist
  if !groups.isEmpty && rcfile.inifile.isNone then none
  else
    match groups.findSome? fun group => rcfile.inifile.bind (·.get group item) with
    | some newval => some (some newval)
    | none => some (rcfile.inifile2.bind fun inifile2 => groups.findSome? (inifile2.get · item))

end Rcfile

/-- `s/^\s*(\"?)(.*)\1\s*$/$2/` on a line. The greedy `.*` leaves nothing to the last `\s*`, unless
a quote stands between them. -/
def stripValue (val : Text) : Text :=
  match val.dropWhile Perl.isSpace with
  | '"' :: body =>
    if (body.rdropWhile Perl.isSpace).getLast? = some '"' then
      (body.rdropWhile Perl.isSpace).dropLast
    else '"' :: body
  | rest => rest

/-- The files of a workspace that can set an option. -/
structure OptionFiles where
  config : LoadedInifile
  user : UserRc
  globalRc : Option LoadedInifile

namespace OptionFiles

/-- What `get_option` does if `awb.config` has no value or an empty one. -/
def getRcfileOption (files : OptionFiles) (grouplist item : Text) (default : Option Text) :
    Option (Option Text) :=
  match Rcfile.openFiles files.user files.globalRc with
  | none => some default
  | some rcfile =>
    match rcfile.get grouplist item with
    | none => none
    | some none => some default
    | some (some val) =>
      if stripValue val ≠ [] then some (some (stripValue val)) else some default

/-- `get_option`, which dies if `Rcfile::get` does. -/
def getOption (files : OptionFiles) (grouplist item : Text) (default : Option Text) :
    Option (Option Text) :=
  match (perlSplit ',' grouplist).findSome? (files.config.get · item) with
  | none => files.getRcfileOption grouplist item default
  | some val =>
    if stripValue val ≠ [] then some (some (stripValue val))
    else files.getRcfileOption grouplist item default

/-! ### The documented order -/

/-- Without blanks around it and without a pair of quotes around the rest. -/
def trimQuoted (val : Text) : Text :=
  match (val.dropWhile Perl.isSpace).rdropWhile Perl.isSpace with
  | '"' :: body => if body.getLast? = some '"' then body.dropLast else '"' :: body
  | trimmed => trimmed

/-- The values of a file, in the order of the groups. -/
def valuesOf (inifile : Option LoadedInifile) (grouplist item : Text) : List Text :=
  (grouplist.splitOn ',').filterMap fun group => inifile.bind (·.valueIn group item)

def userInifile (files : OptionFiles) : Option LoadedInifile :=
  match files.user with
  | .read inifile => some inifile
  | .unreadable | .cannotBeMade => none

/-- All values that an option has, from the highest priority to the lowest. -/
def values (files : OptionFiles) (grouplist item : Text) : List Text :=
  valuesOf (some files.config) grouplist item ++ valuesOf files.userInifile grouplist item ++
    valuesOf files.globalRc grouplist item

/-- The first value that is not empty, or the default. -/
def documented (files : OptionFiles) (grouplist item : Text) (default : Option Text) :
    Option Text :=
  (((files.values grouplist item).map trimQuoted).find? (· ≠ [])).or default

/-! ### Blanks and quotes -/

/-- What is left without the blanks around it stands in quotes. -/
def isQuoted (val : Text) : Bool :=
  match (val.dropWhile Perl.isSpace).rdropWhile Perl.isSpace with
  | '"' :: body => body.getLast? = some '"'
  | _ => false

/-- No blank stands at the end of a text, or it stands behind a quoted one. -/
def Tidy (val : Text) : Prop := (∀ c ∈ val.getLast?, Perl.isSpace c = false) ∨ isQuoted val = true

section values
variable {val : Text}

theorem rdropWhile_cons_of_neg {α : Type*} {p : α → Bool} {a : α} (ha : p a = false)
    (l : List α) : (a :: l).rdropWhile p = a :: l.rdropWhile p := by
  induction l using List.reverseRecOn with
  | nil => rw [List.rdropWhile_singleton, ha, if_neg Bool.false_ne_true, List.rdropWhile_nil]
  | append_singleton l b ih =>
    rw [← List.cons_append]
    by_cases hb : p b = true
    · rw [List.rdropWhile_concat_pos _ _ _ hb, List.rdropWhile_concat_pos _ _ _ hb, ih]
    · rw [List.rdropWhile_concat_neg _ _ _ hb, List.rdropWhile_concat_neg _ _ _ hb]
      rfl

/-- A text is blank, or it has a first character that is none. -/
theorem dropWhile_isSpace (val : Text) : val.dropWhile Perl.isSpace = [] ∨
    ∃ c body, val.dropWhile Perl.isSpace = c :: body ∧ Perl.isSpace c = false := by
  cases h : val.dropWhile Perl.isSpace with
  | nil => exact Or.inl rfl
  | cons c body =>
    have hc := List.head?_dropWhile_not Perl.isSpace val
    rw [h] at hc
    exact Or.inr ⟨c, body, rfl, by simpa using hc⟩

theorem stripValue_of_isQuoted (h : isQuoted val = true) : stripValue val = trimQuoted val := by
  unfold isQuoted at h
  unfold stripValue trimQuoted
  rcases dropWhile_isSpace val with hnil | ⟨c, body, hrest, hc⟩
  · simp [hnil] at h
  · rw [hrest, rdropWhile_cons_of_neg hc] at h ⊢
    by_cases hquote : c = '"'
    · subst hquote
      have hlast : (body.rdropWhile Perl.isSpace).getLast? = some '"' := by simpa using h
      simp only [hlast, if_true]
    · simp [hquote] at h

theorem stripValue_of_not_isQuoted (h : isQuoted val = false) :
    stripValue val = val.dropWhile Perl.isSpace ∧
      trimQuoted val = (val.dropWhile Perl.isSpace).rdropWhile Perl.isSpace := by
  unfold isQuoted at h
  unfold stripValue trimQuoted
  rcases dropWhile_isSpace val with hnil | ⟨c, body, hrest, hc⟩
  · simp [hnil]
  · rw [hrest, rdropWhile_cons_of_neg hc] at h ⊢
    by_cases hquote : c = '"'
    · subst hquote
      have hlast : (body.rdropWhile Perl.isSpace).getLast? ≠ some '"' := by simpa using h
      simp only [hlast, if_false, and_self]
    · simp [hquote]

/-- The two agree about what is empty. -/
theorem stripValue_eq_nil_iff : stripValue val = [] ↔ trimQuoted val = [] := by
  cases h : isQuoted val with
  | true => rw [stripValue_of_isQuoted h]
  | false =>
    obtain ⟨hstrip, htrim⟩ := stripValue_of_not_isQuoted h
    rw [hstrip, htrim]
    rcases dropWhile_isSpace val with hnil | ⟨c, body, hrest, hc⟩
    · rw [hnil, List.rdropWhile_nil]
    · rw [hrest, rdropWhile_cons_of_neg hc]
      simp

/-- Only blanks at the end of a text without quotes stay. -/
theorem stripValue_eq_trimQuoted_iff (hfilled : trimQuoted val ≠ []) :
    stripValue val = trimQuoted val ↔ Tidy val := by
  cases h : isQuoted val with
  | true => exact ⟨fun _ => Or.inr h, fun _ => stripValue_of_isQuoted h⟩
  | false =>
    obtain ⟨hstrip, htrim⟩ := stripValue_of_not_isQuoted h
    have hlast : (val.dropWhile Perl.isSpace).getLast? = val.getLast? := by
      obtain ⟨front, hfront⟩ := List.dropWhile_suffix Perl.isSpace (l := val)
      have hne : val.dropWhile Perl.isSpace ≠ [] := fun hnil => hfilled (by
        rw [htrim, hnil, List.rdropWhile_nil])
      exact (List.getLast?_append_of_ne_nil front hne).symm.trans (congrArg _ hfront)
    rw [hstrip, htrim, eq_comm, List.rdropWhile_eq_self_iff, Tidy, h, ← hlast]
    constructor
    · intro hend
      refine Or.inl fun c hc => ?_
      obtain ⟨hne, rfl⟩ := List.mem_getLast?_eq_getLast hc
      simpa using hend hne
    · intro hend hne
      simpa using (hend.resolve_right (by simp)) _ (List.getLast_mem_getLast? hne)

end values

/-! ### The values that the lookup examines -/

def firstFilled (values : List Text) : Option Text := values.find? fun val => trimQuoted val ≠ []

theorem stripValue_of_firstFilled {values : List Text} {val : Text}
    (h : firstFilled values = some val) : stripValue val ≠ [] := by
  have hfilled : trimQuoted val ≠ [] := by simpa using List.find?_some h
  exact mt stripValue_eq_nil_iff.mp hfilled

section lookup
variable (files : OptionFiles) (grouplist item : Text) (default : Option Text)

/-- The first value that is defined in `awb.config`. -/
def fromConfig : Option Text := (perlSplit ',' grouplist).findSome? (files.config.get · item)

/-- The first value that is defined in the user's rc file, or else in the global one; the global
one is not opened if there is no user's. -/
def fromRcfile : Option Text :=
  let groups := perlSplit ',' grouplist
  match files.user with
  | .read inifile =>
    (groups.findSome? (inifile.get · item)).or
      (files.globalRc.bind fun inifile2 => groups.findSome? (inifile2.get · item))
  | .unreadable | .cannotBeMade => none

def examined : List Text := (files.fromConfig grouplist item).toList ++
  (files.fromRcfile grouplist item).toList

/-- A value is not searched for in a user's rc file that is undefined. -/
def Alive : Prop :=
  files.user = .unreadable → perlSplit ',' grouplist = [] ∨
    ∃ val ∈ files.fromConfig grouplist item, trimQuoted val ≠ []

/-- The cases in which the lookup has the documented result. In the last two it is by chance. -/
inductive Found : Prop
  | none (hvalues : firstFilled (files.values grouplist item) = none)
  | first (val : Text) (hvalues : firstFilled (files.values grouplist item) = some val)
      (hexamined : firstFilled (files.examined grouplist item) = some val) (htidy : Tidy val)
  | sameText (val other : Text) (hvalues : firstFilled (files.values grouplist item) = some val)
      (hexamined : firstFilled (files.examined grouplist item) = some other) (hne : other ≠ val)
      (hsame : stripValue other = trimQuoted val)
  | sameDefault (val : Text) (hvalues : firstFilled (files.values grouplist item) = some val)
      (hexamined : firstFilled (files.examined grouplist item) = none)
      (hsame : default = some (trimQuoted val))

variable {files grouplist item default}

theorem documented_eq : files.documented grouplist item default =
    ((firstFilled (files.values grouplist item)).map trimQuoted).or default := by
  rw [documented, List.find?_map, firstFilled]
  rfl

theorem firstFilled_toList {val? : Option Text} :
    firstFilled val?.toList = val?.filter (stripValue · ≠ []) := by
  cases val? with
  | none => rfl
  | some val =>
    rw [firstFilled, Option.toList_some, List.find?_singleton]
    simp only [Option.filter_some, Ne, stripValue_eq_nil_iff]

/-- Behind `awb.config` the one value that `Rcfile::get` finds counts. -/
theorem getRcfileOption_eq (halive : files.user = .unreadable → perlSplit ',' grouplist = []) :
    files.getRcfileOption grouplist item default =
      some ((((files.fromRcfile grouplist item).filter (stripValue · ≠ [])).map stripValue).or
        default) := by
  have hfilter : ∀ val? : Option Text, (match val? with
      | none => some default
      | some val => if stripValue val ≠ [] then some (some (stripValue val)) else some default) =
      some (((val?.filter (stripValue · ≠ [])).map stripValue).or default) := by
    intro val?
    cases val? with
    | none => rfl
    | some val => by_cases h : stripValue val = [] <;> simp [Option.filter, h]
  rw [← hfilter]
  unfold getRcfileOption fromRcfile
  cases huser : files.user with
  | cannotBeMade => rfl
  | unreadable => simp [Rcfile.openFiles, Rcfile.get, halive huser]
  | read inifile =>
    simp only [Rcfile.openFiles, Rcfile.get, Option.isNone_some, Bool.and_false,
      Bool.false_eq_true, if_false, Option.bind_some]
    cases (perlSplit ',' grouplist).findSome? (inifile.get · item) with
    | none =>
      dsimp only [Option.none_or]
      cases files.globalRc.bind fun inifile2 =>
        (perlSplit ',' grouplist).findSome? (inifile2.get · item) <;> rfl
    | some newval => rfl

theorem getRcfileOption_eq_none (huser : files.user = .unreadable)
    (hgroups : perlSplit ',' grouplist ≠ []) :
    files.getRcfileOption grouplist item default = none := by
  obtain ⟨group, groups, hcons⟩ := List.exists_cons_of_ne_nil hgroups
  simp [getRcfileOption, huser, Rcfile.openFiles, Rcfile.get, hcons]

/-- What `get_option` returns is the first of the examined values that is not empty. -/
theorem getOption_eq (halive : files.Alive grouplist item) :
    files.getOption grouplist item default =
      some (((firstFilled (files.examined grouplist item)).map stripValue).or default) := by
  have hexamined : firstFilled (files.examined grouplist item) =
      ((files.fromConfig grouplist item).filter (stripValue · ≠ [])).or
        ((files.fromRcfile grouplist item).filter (stripValue · ≠ [])) := by
    rw [examined, firstFilled, List.find?_append]
    exact congrArg₂ _ firstFilled_toList firstFilled_toList
  rw [hexamined]
  unfold getOption
  change (match files.fromConfig grouplist item with
    | none => _
    | some val => _) = _
  unfold Alive at halive
  cases hconfig : files.fromConfig grouplist item with
  | none =>
    rw [hconfig] at halive
    exact getRcfileOption_eq fun huser => (halive huser).resolve_right (by simp)
  | some val =>
    rw [hconfig] at halive
    by_cases hval : stripValue val = []
    · have hempty : trimQuoted val = [] := stripValue_eq_nil_iff.mp hval
      simp only [hval, ne_eq, not_true, if_false]
      rw [getRcfileOption_eq fun huser => (halive huser).resolve_right (by simp [hempty])]
      simp [Option.filter, hval]
    · simp [Option.filter, hval]

theorem getOption_eq_none (h : ¬ files.Alive grouplist item) :
    files.getOption grouplist item default = none := by
  simp only [Alive, Classical.not_imp, not_or, not_exists, not_and, not_not] at h
  obtain ⟨huser, hgroups, hempty⟩ := h
  have hrest := @getRcfileOption_eq_none files grouplist item default huser hgroups
  unfold getOption
  change (match files.fromConfig grouplist item with
    | none => _
    | some val => _) = _
  cases hconfig : files.fromConfig grouplist item with
  | none => exact hrest
  | some val =>
    have hval : stripValue val = [] := stripValue_eq_nil_iff.mpr (hempty val hconfig)
    simpa [hval] using hrest

/-- Whatever `get` finds is a value of a group of the list. -/
theorem findSome?_mem_valuesOf {inifile : LoadedInifile} {val : Text}
    (h : (perlSplit ',' grouplist).findSome? (inifile.get · item) = some val) :
    val ∈ valuesOf (some inifile) grouplist item := by
  obtain ⟨group, hgroup, hval⟩ := List.exists_of_findSome?_eq_some h
  refine List.mem_filterMap.mpr ⟨group, (List.rdropWhile_prefix _ _).subset hgroup, ?_⟩
  change Perl.get inifile.1 group item = some val at hval
  unfold Perl.get at hval
  split at hval
  · simp at hval
  · rename_i hfalsy
    have hne : group ≠ [] := fun hnil => hfalsy (hnil ▸ rfl)
    simpa [LoadedInifile.valueIn, hne] using hval

theorem examined_subset : files.examined grouplist item ⊆ files.values grouplist item := by
  intro val hval
  rw [values, List.mem_append, List.mem_append]
  rcases List.mem_append.mp hval with hconfig | hrc
  · exact Or.inl (Or.inl (findSome?_mem_valuesOf (Option.mem_toList.mp hconfig)))
  · rw [Option.mem_toList, fromRcfile] at hrc
    unfold userInifile
    cases huser : files.user with
    | unreadable | cannotBeMade => simp [huser] at hrc
    | read inifile =>
      simp only [huser, Option.or_eq_some_iff, Option.bind_eq_some_iff] at hrc
      rcases hrc with h | ⟨-, inifile2, hglobal, h⟩
      · exact Or.inl (Or.inr (findSome?_mem_valuesOf h))
      · exact Or.inr (hglobal ▸ findSome?_mem_valuesOf h)

theorem firstFilled_examined_of_values (h : firstFilled (files.values grouplist item) = none) :
    firstFilled (files.examined grouplist item) = none :=
  List.find?_eq_none.mpr fun val hval => List.find?_eq_none.mp h val (examined_subset hval)

theorem getOption_eq_documented_iff : files.getOption grouplist item default =
      some (files.documented grouplist item default) ↔
    files.Alive grouplist item ∧ files.Found grouplist item default := by
  by_cases halive : files.Alive grouplist item
  swap
  · simp [getOption_eq_none halive, halive]
  rw [getOption_eq halive, documented_eq, Option.some_inj, and_iff_right halive]
  cases hvalues : firstFilled (files.values grouplist item) with
  | none =>
    rw [firstFilled_examined_of_values hvalues]
    exact iff_of_true rfl (Found.none hvalues)
  | some val =>
    have hfilled : trimQuoted val ≠ [] := by simpa using List.find?_some hvalues
    cases hexamined : firstFilled (files.examined grouplist item) with
    | none =>
      simp only [Option.map_none, Option.none_or, Option.map_some, Option.some_or]
      refine ⟨Found.sameDefault val hvalues hexamined, fun h => ?_⟩
      cases h <;> simp_all
    | some other =>
      simp only [Option.map_some, Option.some_or, Option.some_inj]
      constructor
      · intro hsame
        by_cases hother : other = val
        · subst hother
          have htidy : Tidy other := (stripValue_eq_trimQuoted_iff hfilled).mp hsame
          exact Found.first other hvalues hexamined htidy
        · exact Found.sameText val other hvalues hexamined hother hsame
      · intro h
        cases h with
        | none hnone => simp [hvalues] at hnone
        | first v hv he htidy =>
          obtain rfl := Option.some.inj (hvalues.symm.trans hv)
          obtain rfl := Option.some.inj (hexamined.symm.trans he)
          exact (stripValue_eq_trimQuoted_iff hfilled).mpr htidy
        | sameText v o hv he hne hsame =>
          obtain rfl := Option.some.inj (hvalues.symm.trans hv)
          obtain rfl := Option.some.inj (hexamined.symm.trans he)
          exact hsame
        | sameDefault v hv he hsame => simp [hexamined] at he

end lookup

/-- An `awb.config` in which the first of two groups has an empty value. -/
def emptyFlags : FileSystem Unit where
  read _ file :=
    if file = "awb.config".toList then
      some "[Package]\nCONFIGFLAGS=\n[Local]\nCONFIGFLAGS=--enable-debug\n".toList
    else none
  chdir _ _ := some ()
  stdin := []

/-- The empty value hides the one of the second group. -/
theorem not_getOption_eq_documented :
    ∃ config, LoadedInifile.new emptyFlags () 1 "awb.config".toList = some config ∧
      getOption ⟨config, .read ⟨∅, Perl.wellFormed_empty⟩, none⟩ "Package,Local".toList
          "CONFIGFLAGS".toList none ≠
        some (documented ⟨config, .read ⟨∅, Perl.wellFormed_empty⟩, none⟩ "Package,Local".toList
          "CONFIGFLAGS".toList none) := by
  have hread : (LoadedInifile.new emptyFlags () 1 "awb.config".toList).map (fun config =>
      (getOption ⟨config, .read ⟨∅, Perl.wellFormed_empty⟩, none⟩ "Package,Local".toList
          "CONFIGFLAGS".toList none,
        documented ⟨config, .read ⟨∅, Perl.wellFormed_empty⟩, none⟩ "Package,Local".toList
          "CONFIGFLAGS".toList none)) = some (some none, some "--enable-debug".toList) := by
    decide +kernel
  obtain ⟨config, hconfig, hresult⟩ := Option.map_eq_some_iff.mp hread
  obtain ⟨hget, hdocumented⟩ := Prod.mk.inj hresult
  refine ⟨config, hconfig, ?_⟩
  rw [hget, hdocumented]
  decide

end OptionFiles
end Awb
