import Awb.Stats.ItemRuns

/-! The handler prints what is in a document, if no element takes over what another one left
behind in the tables of properties and of histograms. -/

namespace Awb.Stats.ToText
open State

/-- Everything but blank text. -/
def loud : Event → Bool
  | .characters data => !blank data
  | _ => true

theorem run_filter_loud (s : State) (events : List Event) :
    s.run (events.filter loud) = s.run events := by
  induction events generalizing s with
  | nil => rfl
  | cons e events ih =>
    cases he : loud e with
    | true => rw [List.filter_cons_of_pos he, run_cons, run_cons, ih]
    | false =>
      have hquiet : s.step e = s := by
        cases e with
        | startElement => cases he
        | endElement => cases he
        | characters data =>
          have hblank : blank data = true := by simpa [loud] using he
          rw [State.step, characters, if_pos hblank]
      rw [List.filter_cons_of_neg (by simp [he]), run_cons, hquiet, ih]

/-- The assignment to the histogram table that a part makes. -/
def Part.assigned : Part → Text × Value
  | scalar h value => ((h.keep "name").getD [], .text (kept value))
  | columns _ values => ("column_names".toList, .array (values.map kept))

/-- The name and the value of a scalar in a histogram. -/
def Part.entry : Part → Option (Text × Text)
  | scalar h value => some ((h.get "name").getD [], value)
  | columns _ _ => none

def Part.columnNames : Part → Option (List Text)
  | scalar _ _ => none
  | columns _ values => some values

/-- The value that a histogram has for a name. -/
def ownEntry (parts : List Part) (key : Text) : Option Value :=
  (latest (parts.filterMap Part.entry) key).map .text

def ownColumns (parts : List Part) : Option Value :=
  (parts.reverse.findSome? Part.columnNames).map .array

/-- The description of an element. -/
def Header.desc (h : Header) : Option Text := (h.get "desc").filter (· ≠ [])

mutual

/-- The lines for an element, with the names of the enclosing compounds. -/
def Item.expected : Item → List Text → List (Print × List Text)
  | .scalar h value, path => [(.scalar (h.get "type") (h.get "name") h.desc value, path)]
  | .vector h values, path => [(.vector (h.get "type") (h.get "name") values, path)]
  | .compound h items, path => (.header (h.get "type") (h.get "name") h.desc, path) ::
      itemsExpected items ((h.get "name").getD [] :: path)
  | .histogram h before _ rows after, path =>
    (.histogramHeader ((h.get "name").map .text) (ownEntry (before ++ after) "rows".toList)
      (ownEntry (before ++ after) "cols".toList) (ownEntry (before ++ after) "entries".toList)
      (h.desc.map .text) (ownColumns (before ++ after)), path) ::
      rows.map fun row => (.histogramRow (row.1.get "name") row.2, path)

def itemsExpected : List Item → List Text → List (Print × List Text)
  | [], _ => []
  | i :: items, path => i.expected path ++ itemsExpected items path

end

def isFooter : Print → Bool
  | .footer _ | .histogramFooter _ => true
  | _ => false

/-- The lines without footers. -/
def lines (out : List (Print × List Text)) : List (Print × List Text) :=
  out.filter fun line => !isFooter line.1

/-- The lines are those of the document, each printed under the names of the enclosing compounds,
and nothing is left open. -/
structure Faithful (doc : Item) (s : State) : Prop where
  lines : lines s.out = doc.expected []
  nameStack : s.nameStack = []
  inHistogram : s.inHistogram = 0

/-- A text is not blank, unless it is empty. -/
def Sharp (text : Text) : Prop := blank text = true → text = []

/-- A description is no blank text and not 0; without one there is none to take over. -/
def DescClear (h : Header) (inherited : Option Text) : Prop :=
  match h.get "desc" with
  | some desc => desc = [] ∨ blank desc = false ∧ desc ≠ ['0']
  | none => truthy inherited = false

mutual

/-- The assignments to the histogram table that the histograms of an element make. -/
def Item.assigned : Item → List (Text × Value)
  | .scalar _ _ | .vector _ _ => []
  | .compound _ items => itemsAssigned items
  | .histogram _ before _ _ after => (before ++ after).map Part.assigned

def itemsAssigned : List Item → List (Text × Value)
  | [] => []
  | i :: items => i.assigned ++ itemsAssigned items

end

/-- A histogram has its row and column numbers, its number of entries and its column names in front
of its data, or no histogram before it had any; no scalar is named like another entry. -/
structure HistogramClear (h : Header) (before after : List Part) (inherited : Option Text)
    (earlier : List (Text × Value)) : Prop where
  name : ∀ value, latest (before.map Part.assigned) "name".toList = some value →
    some value = (h.get "name").map .text
  desc : (latest (before.map Part.assigned) "desc".toList <|>
      (h.keep "desc" <|> inherited).map Value.text).filter (· ≠ Value.text []) =
    h.desc.map Value.text
  entries : ∀ key ∈ ["rows".toList, "cols".toList, "entries".toList],
    latest (earlier ++ before.map Part.assigned) key = ownEntry (before ++ after) key
  columns : latest (earlier ++ before.map Part.assigned) "column_names".toList =
    ownColumns (before ++ after)

mutual

/-- An element takes over nothing: `inherited` is the description that is left over from the
enclosing compound, `earlier` what the histograms before it assigned. -/
def Item.Clear : Item → Option Text → List (Text × Value) → Prop
  | .scalar h value, inherited, _ => (∀ tag ∈ ["type", "name"], ∀ text, h.get tag = some text →
      Sharp text) ∧ DescClear h inherited ∧ Sharp value
  | .vector h values, _, _ => (∀ tag ∈ ["type", "name"], ∀ text, h.get tag = some text →
      Sharp text) ∧ ∀ value ∈ values, Sharp value
  | .compound h items, inherited, earlier => truthy (h.keep "type") ∧ DescClear h inherited ∧
      itemsClear items (h.keep "desc" <|> inherited) earlier
  | .histogram h before _ rows after, inherited, earlier =>
    HistogramClear h before after inherited earlier ∧
      ∀ row ∈ rows, (∀ text, row.1.get "name" = some text → Sharp text) ∧
        ∀ value ∈ row.2, Sharp value

/-- The first element may take over the description. -/
def itemsClear : List Item → Option Text → List (Text × Value) → Prop
  | [], _, _ => True
  | i :: items, inherited, earlier =>
    i.Clear inherited earlier ∧ itemsClear items none (earlier ++ i.assigned)

end

theorem kept_eq_iff {text : Text} : kept text = text ↔ Sharp text := by
  rw [kept, Sharp]
  split
  next h => simp [h, eq_comm]
  next h => simp [h]

theorem map_kept_eq_iff {values : List Text} :
    values.map kept = values ↔ ∀ v ∈ values, Sharp v := by
  have hinj := List.map_inj_left (l := values) (f := kept) (g := id)
  rw [List.map_id] at hinj
  exact hinj.trans (forall₂_congr fun v _ => kept_eq_iff)

theorem keep_eq_iff {h : Header} {tag : String} :
    h.keep tag = h.get tag ↔ ∀ text, h.get tag = some text → Sharp text := by
  rw [Header.keep]
  cases h.get tag with
  | none => simp
  | some text => simp [kept_eq_iff]

/-- A name or type that a test accepts is kept as it is. -/
theorem keep_eq_of_truthy {h : Header} {tag : String} (ht : truthy (h.keep tag) = true) :
    h.keep tag = h.get tag := by
  refine keep_eq_iff.mpr fun text htext hblank => ?_
  rw [Header.keep, htext, Option.map_some, kept, if_pos hblank] at ht
  cases ht

theorem described_eq_iff {h : Header} {inherited : Option Text} :
    described (h.keep "desc" <|> inherited) = h.desc ↔ DescClear h inherited := by
  rw [DescClear, Header.desc, Header.keep]
  cases h.get "desc" with
  | none =>
    cases inherited with
    | none => simp [described, truthy]
    | some text => simp [described]
  | some desc =>
    cases hblank : blank desc with
    | true =>
      by_cases hempty : desc = []
      · simp [described, kept, hempty, Option.filter, truthy]
      · simp [described, kept, hblank, hempty, truthy, Option.filter]
    | false =>
      by_cases hempty : desc = []
      · simp [described, kept, hempty, Option.filter, truthy]
      · by_cases hzero : desc = ['0']
        · simp [described, kept, hzero, truthy, Option.filter, blank]
        · simp [described, kept, hblank, hempty, hzero, truthy, Option.filter]

theorem latest_append {κ α : Type} [DecidableEq κ] (l l' : List (κ × α)) (k : κ) :
    latest (l ++ l') k = (latest l' k <|> latest l k) := by
  induction l with
  | nil => simp [latest]
  | cons kv l ih =>
    rw [List.cons_append, latest, ih, latest]
    cases latest l' k <;> simp

/-- The histogram table after some parts. -/
theorem foldl_hash (parts : List Part) (hash : Hash) :
    parts.foldl Part.hash hash = fun key => latest (parts.map Part.assigned) key <|> hash key := by
  have hstep : Part.hash = fun (hash : Hash) (p : Part) =>
      Function.update hash p.assigned.1 (some (id p.assigned.2)) := by
    funext hash p
    cases p <;> rfl
  have hfold := foldl_update id (parts.map Part.assigned) hash
  rw [List.foldl_map] at hfold
  simp only [Option.map_id, id_eq] at hfold
  rw [hstep]
  exact hfold

/-- The histogram table holds what was assigned, but for the names and descriptions of histograms
themselves. -/
def Holds (hash : Hash) (earlier : List (Text × Value)) : Prop :=
  ∀ key, key ≠ "name".toList → key ≠ "desc".toList → hash key = latest earlier key

section
variable {hash : Hash} {earlier : List (Text × Value)}

theorem Holds.enter (h : Header) (inherited : Option Text) (hh : Holds hash earlier) :
    Holds (enterHash h inherited hash) earlier := by
  intro key hname hdesc
  rw [enterHash, Function.update_of_ne hdesc, Function.update_of_ne hname]
  exact hh key hname hdesc

theorem Holds.parts (parts : List Part) (hh : Holds hash earlier) :
    Holds (parts.foldl Part.hash hash) (earlier ++ parts.map Part.assigned) := by
  intro key hname hdesc
  rw [foldl_hash, latest_append, ← hh key hname hdesc]

mutual

theorem Holds.item : ∀ (i : Item) (inherited : Option Text) {hash : Hash}
    {earlier : List (Text × Value)}, Holds hash earlier →
    Holds (i.hash inherited hash) (earlier ++ i.assigned)
  | .scalar _ _, _, _, _, hh => by simpa [Item.hash, Item.assigned] using hh
  | .vector _ _, _, _, _, hh => by simpa [Item.hash, Item.assigned] using hh
  | .compound h items, inherited, _, _, hh => by
    rw [Item.hash, Item.assigned]
    exact Holds.items items _ hh
  | .histogram h before data rows after, inherited, _, _, hh => by
    rw [Item.hash, Item.assigned, List.map_append, ← List.append_assoc]
    exact ((hh.enter h inherited).parts before).parts after

theorem Holds.items : ∀ (items : List Item) (inherited : Option Text) {hash : Hash}
    {earlier : List (Text × Value)}, Holds hash earlier →
    Holds (itemsHash items inherited hash) (earlier ++ itemsAssigned items)
  | [], _, _, _, hh => by simpa [itemsHash, itemsAssigned] using hh
  | i :: items, inherited, _, _, hh => by
    rw [itemsHash, itemsAssigned, ← List.append_assoc]
    exact Holds.items items none (Holds.item i inherited hh)

end

end

@[simp] theorem lines_append (l l' : List (Print × List Text)) :
    lines (l ++ l') = lines l ++ lines l' := List.filter_append ..

theorem lines_histogram (h : Header) (before : List Part) (data : Header)
    (rows : List (Header × List Text)) (after : List Part) (inherited : Option Text)
    (path : List Text) (hash : Hash) :
    lines ((Item.histogram h before data rows after).printed inherited path hash) =
      (histogramHeader (before.foldl Part.hash (enterHash h inherited hash)), path) ::
        rows.map fun row => (.histogramRow (row.1.keep "name") (row.2.map kept), path) := by
  have hrows : lines (rows.map fun row =>
      (.histogramRow (row.1.keep "name") (row.2.map kept), path)) =
      rows.map fun row => (.histogramRow (row.1.keep "name") (row.2.map kept), path) := by
    refine List.filter_eq_self.mpr fun line hline => ?_
    obtain ⟨row, -, rfl⟩ := List.mem_map.mp hline
    rfl
  rw [Item.printed, lines_append]
  exact (congrArg (fun l => _ :: l ++ []) hrows).trans (List.append_nil _)

mutual

/-- No line is printed that is not in the document, at most one is missing for each. -/
theorem length_printed : ∀ (i : Item) (inherited : Option Text) (path path' : List Text)
    (hash : Hash), (lines (i.printed inherited path hash)).length ≤ (i.expected path').length
  | .scalar _ _, _, _, _, _ => le_rfl
  | .vector _ _, _, _, _, _ => le_rfl
  | .compound h items, inherited, path, path', hash => by
    have hitems := length_itemsPrinted items (h.keep "desc" <|> inherited)
      ((h.keep "name").getD [] :: path) ((h.get "name").getD [] :: path') hash
    rw [Item.printed, Item.expected]
    split <;> simp [lines, isFooter] at hitems ⊢ <;> omega
  | .histogram h before _ rows after, inherited, path, path', hash => by
    rw [lines_histogram, Item.expected, List.length_cons, List.length_cons, List.length_map,
      List.length_map]

theorem length_itemsPrinted : ∀ (items : List Item) (inherited : Option Text)
    (path path' : List Text) (hash : Hash),
    (lines (itemsPrinted items inherited path hash)).length ≤ (itemsExpected items path').length
  | [], _, _, _, _ => le_rfl
  | i :: items, inherited, path, path', hash => by
    have hi := length_printed i inherited path path' hash
    have hitems := length_itemsPrinted items none path path' (i.hash inherited hash)
    rw [itemsPrinted, itemsExpected, lines_append, List.length_append, List.length_append]
    omega

end

/-- What is printed for a histogram header against the histogram. -/
theorem histogramHeader_eq_iff {h : Header} (before after : List Part) (inherited : Option Text)
    {hash : Hash} {earlier : List (Text × Value)} (hh : Holds hash earlier)
    (hname : h.keep "name" = h.get "name") :
    histogramHeader (before.foldl Part.hash (enterHash h inherited hash)) =
      .histogramHeader ((h.get "name").map .text) (ownEntry (before ++ after) "rows".toList)
        (ownEntry (before ++ after) "cols".toList) (ownEntry (before ++ after) "entries".toList)
        (h.desc.map .text) (ownColumns (before ++ after)) ↔
      HistogramClear h before after inherited earlier := by
  have hother : ∀ key, key ≠ "name".toList → key ≠ "desc".toList →
      before.foldl Part.hash (enterHash h inherited hash) key =
        latest (earlier ++ before.map Part.assigned) key := (hh.enter h inherited).parts before
  have hnameKey : before.foldl Part.hash (enterHash h inherited hash) "name".toList =
      (latest (before.map Part.assigned) "name".toList <|> (h.get "name").map .text) := by
    rw [foldl_hash, ← hname]
    rfl
  have hdescKey : before.foldl Part.hash (enterHash h inherited hash) "desc".toList =
      (latest (before.map Part.assigned) "desc".toList <|>
        (h.keep "desc" <|> inherited).map .text) := by
    rw [foldl_hash]
    rfl
  rw [histogramHeader, hnameKey, hdescKey, hother _ (by decide) (by decide),
    hother _ (by decide) (by decide), hother _ (by decide) (by decide),
    hother _ (by decide) (by decide), Print.histogramHeader.injEq]
  constructor
  · rintro ⟨hn, hr, hc, he, hd, hcol⟩
    refine ⟨fun value hvalue => ?_, hd, ?_, hcol⟩
    · rw [hvalue] at hn
      exact hn
    · simp only [List.forall_mem_cons]
      exact ⟨hr, hc, he, fun _ hx => absurd hx List.not_mem_nil⟩
  · intro hclear
    have hentries := hclear.entries
    simp only [List.forall_mem_cons] at hentries
    refine ⟨?_, hentries.1, hentries.2.1, hentries.2.2.1, hclear.desc, hclear.columns⟩
    cases hl : latest (before.map Part.assigned) "name".toList with
    | none => rfl
    | some value => exact hclear.name value hl

/-- Parts of two lists of lines that are not longer than their counterparts. -/
theorem append_eq_iff {α : Type*} {a a' b b' : List α} (ha : a.length ≤ a'.length)
    (hb : b.length ≤ b'.length) : a ++ b = a' ++ b' ↔ a = a' ∧ b = b' := by
  constructor
  · intro h
    have hlen := congrArg List.length h
    rw [List.length_append, List.length_append] at hlen
    exact List.append_inj h (by omega)
  · rintro ⟨rfl, rfl⟩
    rfl

mutual

/-- The lines for an element are those of the document exactly if it takes over nothing. -/
theorem lines_printed_iff : ∀ (i : Item) (inherited : Option Text) (path : List Text) (hash : Hash)
    (earlier : List (Text × Value)), i.Valid → Holds hash earlier →
    (lines (i.printed inherited path hash) = i.expected path ↔ i.Clear inherited earlier)
  | .scalar h value, inherited, path, hash, earlier, _, _ => by
    have hline : lines ((Item.scalar h value).printed inherited path hash) =
      (Item.scalar h value).printed inherited path hash := rfl
    rw [hline, Item.printed, Item.expected, Item.Clear, ← described_eq_iff, ← kept_eq_iff]
    simp only [List.forall_mem_cons, ← keep_eq_iff]
    simp [and_assoc]
  | .vector h values, inherited, path, hash, earlier, _, _ => by
    have hline : lines ((Item.vector h values).printed inherited path hash) =
      (Item.vector h values).printed inherited path hash := rfl
    rw [hline, Item.printed, Item.expected, Item.Clear, ← map_kept_eq_iff]
    simp only [List.forall_mem_cons, ← keep_eq_iff]
    simp [and_assoc]
  | .compound h items, inherited, path, hash, earlier, hvalid, hh => by
    obtain ⟨-, -, hname, hitems⟩ := hvalid
    have hsame := keep_eq_of_truthy hname
    have hiff := lines_itemsPrinted_iff items (h.keep "desc" <|> inherited)
      ((h.get "name").getD [] :: path) hash earlier hitems hh
    have hlen := length_itemsPrinted items (h.keep "desc" <|> inherited)
      ((h.get "name").getD [] :: path) ((h.get "name").getD [] :: path) hash
    rw [Item.printed, Item.expected, Item.Clear, hsame, ← hiff, ← described_eq_iff]
    cases htype : truthy (h.keep "type") with
    | true =>
      rw [← keep_eq_of_truthy htype]
      simp [lines, isFooter] at hlen ⊢
    | false =>
      simp [lines, isFooter] at hlen ⊢
      intro he
      rw [he] at hlen
      simp at hlen
  | .histogram h before data rows after, inherited, path, hash, earlier, hvalid, hh => by
    obtain ⟨-, hname, -⟩ := hvalid
    have hheader := histogramHeader_eq_iff before after inherited hh (keep_eq_of_truthy hname)
    rw [lines_histogram, Item.expected, Item.Clear, List.cons.injEq, Prod.mk.injEq, ← hheader,
      List.map_inj_left]
    simp only [and_true, Prod.mk.injEq, Print.histogramRow.injEq, keep_eq_iff, map_kept_eq_iff]

theorem lines_itemsPrinted_iff : ∀ (items : List Item) (inherited : Option Text)
    (path : List Text) (hash : Hash) (earlier : List (Text × Value)), itemsValid items →
    Holds hash earlier →
    (lines (itemsPrinted items inherited path hash) = itemsExpected items path ↔
      itemsClear items inherited earlier)
  | [], _, _, _, _, _, _ => by simp [itemsPrinted, itemsExpected, itemsClear, lines]
  | i :: items, inherited, path, hash, earlier, hvalid, hh => by
    obtain ⟨hi, hitems⟩ := hvalid
    rw [itemsPrinted, itemsExpected, itemsClear, lines_append,
      append_eq_iff (length_printed i inherited path path hash)
        (length_itemsPrinted items none path path (i.hash inherited hash)),
      lines_printed_iff i inherited path hash earlier hi hh,
      lines_itemsPrinted_iff items none path (i.hash inherited hash) (earlier ++ i.assigned) hitems
        (hh.item i inherited)]

end

/-- A module with a scalar and a histogram of one row. -/
def simpleDoc : Item :=
  .compound ⟨[("type", "module".toList), ("name", "top".toList), ("desc", "all".toList)], by decide⟩
    [.scalar ⟨[("type", "uint".toList), ("name", "hits".toList), ("desc", "a count".toList)],
        by decide⟩ "5".toList,
      .histogram ⟨[("type", "histogram".toList), ("name", "sizes".toList)], by decide⟩
        [.scalar ⟨[("name", "rows".toList)], by decide⟩ "1".toList,
          .scalar ⟨[("name", "cols".toList)], by decide⟩ "1".toList,
          .scalar ⟨[("name", "entries".toList)], by decide⟩ "7".toList,
          .columns ⟨[("type", "info".toList), ("name", "column names".toList)], by decide⟩
            ["small".toList]]
        ⟨[("type", "info".toList), ("name", "data".toList)], by decide⟩
        [(⟨[("type", "row".toList), ("name", "0".toList)], by decide⟩, ["7".toList])] []]

theorem simpleDoc_valid : simpleDoc.Valid := by
  refine ⟨by decide, by decide, by decide, ⟨by decide, by decide⟩, ?_, trivial⟩
  refine ⟨by decide, by decide, ?_, by decide, by decide, ?_⟩
  · simp only [List.append_nil, List.forall_mem_cons]
    exact ⟨by simp [Part.Valid, Header.get, latest], by simp [Part.Valid, Header.get, latest],
      by simp [Part.Valid, Header.get, latest], ⟨by decide, by decide⟩,
      fun _ h => absurd h List.not_mem_nil⟩
  · simp only [List.forall_mem_cons]
    exact ⟨⟨by decide, by decide⟩, fun _ h => absurd h List.not_mem_nil⟩

/-- The first element of a module with a description, which has none itself. -/
def inheritingDoc : Item :=
  .compound ⟨[("type", "module".toList), ("name", "top".toList), ("desc", "all".toList)], by decide⟩
    [.scalar ⟨[("type", "uint".toList), ("name", "hits".toList)], by decide⟩ "5".toList]

end Awb.Stats.ToText
