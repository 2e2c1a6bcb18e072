import Awb.Stats.ToText

/-! Documents as the handler reads them, and the lines that it prints for them. -/

namespace Awb.Stats.ToText

/-- The last value for a key. -/
def latest {κ α : Type} [DecidableEq κ] : List (κ × α) → κ → Option α
  | [], _ => none
  | (key, value) :: l, k => latest l k <|> if key = k then some value else none

/-- Assignments to a table leave the last value for each key. -/
theorem foldl_update {κ α β : Type} [DecidableEq κ] (g : α → β) (l : List (κ × α))
    (f : κ → Option β) :
    l.foldl (fun (f : κ → Option β) kv => Function.update f kv.1 (some (g kv.2))) f
      = fun k => (latest l k).map g <|> f k := by
  induction l generalizing f with
  | nil => rfl
  | cons kv l ih =>
    rw [List.foldl_cons, ih]
    funext k
    cases hl : latest l k with
    | some v => simp [latest, hl]
    | none =>
      by_cases hk : kv.1 = k
      · subst hk
        simp [latest, hl]
      · simp [latest, hl, hk, Function.update_of_ne (Ne.symm hk)]

/-- The elements in front of the contents of a scalar, vector or compound. -/
structure Header where
  fields : List (String × Text)
  plain : ∀ f ∈ fields, isItem f.1 = false ∧ f.1 ≠ "value"

/-- What a histogram holds besides its data: scalars and column names. -/
inductive Part
  | scalar (h : Header) (value : Text)
  | columns (h : Header) (values : List Text)

inductive Item
  | scalar (h : Header) (value : Text)
  | vector (h : Header) (values : List Text)
  | compound (h : Header) (items : List Item)
  | histogram (h : Header) (before : List Part) (data : Header) (rows : List (Header × List Text))
      (after : List Part)

/-- What is kept of a text. -/
def kept (text : Text) : Text := if blank text then [] else text

namespace Header
variable (h : Header)

def get (tag : String) : Option Text := latest h.fields tag

/-- The text of a field as the handler keeps it. -/
def keep (tag : String) : Option Text := (h.get tag).map kept

def events : List Event :=
  h.fields.flatMap fun f => [.startElement f.1, .characters f.2, .endElement f.1]

/-- The properties after the fields were read. -/
def onto (properties : String → Option Text) (tag : String) : Option Text :=
  h.keep tag <|> properties tag

end Header

def valueEvents (values : List Text) : List Event :=
  values.flatMap fun value => [.startElement "value", .characters value, .endElement "value"]

def scalarEvents (h : Header) (value : Text) : List Event :=
  .startElement "scalar" :: h.events ++ [.characters value, .endElement "scalar"]

def vectorEvents (h : Header) (values : List Text) : List Event :=
  .startElement "vector" :: h.events ++ valueEvents values ++ [.endElement "vector"]

def Part.events : Part → List Event
  | scalar h value => scalarEvents h value
  | columns h values => vectorEvents h values

def compoundEvents (h : Header) (content : List Event) : List Event :=
  .startElement "compound" :: h.events ++ content ++ [.endElement "compound"]

mutual

/-- The events of an element. -/
def Item.events : Item → List Event
  | .scalar h value => scalarEvents h value
  | .vector h values => vectorEvents h values
  | .compound h items => compoundEvents h (itemEvents items)
  | .histogram h before data rows after =>
    compoundEvents h (before.flatMap Part.events ++
      compoundEvents data (rows.flatMap fun row => vectorEvents row.1 row.2) ++
      after.flatMap Part.events)

def itemEvents : List Item → List Event
  | [] => []
  | i :: items => i.events ++ itemEvents items

end

/-- The types and names that the elements of a document have. -/
def Part.Valid : Part → Prop
  | scalar h _ => (h.get "name").isSome
  | columns h _ => h.get "type" = some "info".toList ∧ h.get "name" = some "column names".toList

mutual

/-- A compound has a type and a name; a histogram is a compound of type histogram, whose data are
in a compound of type info. -/
def Item.Valid : Item → Prop
  | .scalar h _ => (h.get "type").isSome ∧ (h.get "name").isSome
  | .vector h _ => (h.get "type").isSome ∧ (h.get "name").isSome
  | .compound h items => (h.get "type").isSome ∧ h.keep "type" ≠ some "histogram".toList ∧
      truthy (h.keep "name") ∧ itemsValid items
  | .histogram h before data rows after => h.get "type" = some "histogram".toList ∧
      truthy (h.keep "name") ∧ (∀ part ∈ before ++ after, part.Valid) ∧
      data.get "type" = some "info".toList ∧ data.get "name" = some "data".toList ∧
      ∀ row ∈ rows, row.1.get "type" = some "row".toList ∧ (row.1.get "name").isSome

def itemsValid : List Item → Prop
  | [] => True
  | i :: items => i.Valid ∧ itemsValid items

end

/-- A description that is printed. -/
def described (desc : Option Text) : Option Text := desc.filter (truthy ∘ some)

/-- The histogram table after a part was read. -/
def Part.hash (hash : Hash) : Part → Hash
  | scalar h value => Function.update hash ((h.keep "name").getD []) (some (.text (kept value)))
  | columns _ values =>
    Function.update hash "column_names".toList (some (.array (values.map kept)))

/-- The histogram table when a histogram is entered, with the description that is inherited. -/
def enterHash (h : Header) (desc : Option Text) (hash : Hash) : Hash :=
  Function.update (Function.update hash "name".toList ((h.keep "name").map .text)) "desc".toList
    ((h.keep "desc" <|> desc).map .text)

mutual

/-- The histogram table after an element was read. -/
def Item.hash : Item → Option Text → Hash → Hash
  | .scalar _ _, _, hash | .vector _ _, _, hash => hash
  | .compound h items, desc, hash => itemsHash items (h.keep "desc" <|> desc) hash
  | .histogram h before _ _ after, desc, hash =>
    after.foldl Part.hash (before.foldl Part.hash (enterHash h desc hash))

def itemsHash : List Item → Option Text → Hash → Hash
  | [], _, hash => hash
  | i :: items, desc, hash => itemsHash items none (i.hash desc hash)

end

def histogramHeader (hash : Hash) : Print :=
  .histogramHeader (hash "name".toList) (hash "rows".toList) (hash "cols".toList)
    (hash "entries".toList) ((hash "desc".toList).filter (· ≠ .text []))
    (hash "column_names".toList)

mutual

/-- What is printed for an element: `desc` is the description that is left over from the enclosing
compound, `path` the names of the enclosing compounds. -/
def Item.printed : Item → Option Text → List Text → Hash → List (Print × List Text)
  | .scalar h value, desc, path, _ => [(.scalar (h.keep "type") (h.keep "name")
      (described (h.keep "desc" <|> desc)) (kept value), path)]
  | .vector h values, _, path, _ =>
    [(.vector (h.keep "type") (h.keep "name") (values.map kept), path)]
  | .compound h items, desc, path, hash =>
    (if truthy (h.keep "type") then [(.header (h.keep "type") (h.keep "name")
      (described (h.keep "desc" <|> desc)), path)] else []) ++
      itemsPrinted items (h.keep "desc" <|> desc) ((h.keep "name").getD [] :: path) hash ++
      [(.footer (h.keep "name"), path)]
  | .histogram h before _ rows _, desc, path, hash =>
    let hash := before.foldl Part.hash (enterHash h desc hash)
    (histogramHeader hash, path) ::
      rows.map (fun row => (.histogramRow (row.1.keep "name") (row.2.map kept), path)) ++
      [(.histogramFooter (hash "name".toList), path)]

/-- The first element finds the description of the compound. -/
def itemsPrinted : List Item → Option Text → List Text → Hash → List (Print × List Text)
  | [], _, _, _ => []
  | i :: items, desc, path, hash =>
    i.printed desc path hash ++ itemsPrinted items none path (i.hash desc hash)

end

end Awb.Stats.ToText
