import Awb.Apm.ModuleParse

/-! The words behind the directives of a `.awb` file, and which of them `Module::Parse` records. -/

namespace Awb.Apm
open Inifile (isBlank)
open Inifile.Cxx (cText)

theorem splitWords_eq (text : Text) : splitWords text = blankWords text := by
  have hblank : (fun c => decide (c ∈ [' ', '\t'])) = isBlank := by
    funext c
    simp [isBlank, Bool.decide_or]
  unfold splitWords splitString blankWords
  split
  · rfl
  · rename_i c
    rw [← hblank, List.splitOnP_cons_eq_if_modifyHead]
    by_cases hc : c ∈ [' ', '\t']
    · rw [if_pos hc, if_pos (by simpa using hc)]
      rfl
    · rw [if_neg hc, if_neg (by simpa using hc)]
      rfl
  · rw [hblank]

/-! ### The first directive of a line -/

/-- A directive at the beginning of a text, and what is behind it. -/
def directiveAt (text : Text) : Option (Directive × Text) :=
  Directive.chain.findSome? fun d => d.keywords.findSome? fun keyword =>
    if keyword.isPrefixOf text && (text.drop keyword.length).head?.any inSpaceClass then
      some (d, text.drop keyword.length)
    else none

def firstDirective : Text → Option (Directive × Text)
  | [] => none
  | c :: text => (directiveAt (c :: text)).or (firstDirective text)

section Captures
variable {d : Directive} {l : WordList} {line text behind front captured keyword : Text}

theorem mem_chain (d : Directive) : d ∈ Directive.chain := by
  cases d with
  | words list => cases list <;> decide
  | _ => decide

theorem directiveAt_spec (h : directiveAt text = some (d, behind)) : ∃ keyword ∈ d.keywords,
    text = keyword ++ behind ∧ behind.head?.any inSpaceClass = true := by
  obtain ⟨d', -, h⟩ := List.exists_of_findSome?_eq_some h
  obtain ⟨keyword, hkeyword, h⟩ := List.exists_of_findSome?_eq_some h
  split at h
  next hboth =>
    obtain ⟨hbegin, hspace⟩ := Bool.and_eq_true_iff.mp hboth
    obtain ⟨rfl, rfl⟩ := Prod.mk.inj (Option.some.inj h)
    obtain ⟨rest, rfl⟩ := List.isPrefixOf_iff_prefix.mp hbegin
    rw [List.drop_left] at hspace ⊢
    exact ⟨keyword, hkeyword, rfl, hspace⟩
  next => cases h

theorem directiveAt_isSome (hkeyword : keyword ∈ d.keywords)
    (hspace : behind.head?.any inSpaceClass = true) :
    (directiveAt (keyword ++ behind)).isSome = true := by
  rw [directiveAt, List.findSome?_isSome_iff]
  refine ⟨d, mem_chain d, ?_⟩
  rw [List.findSome?_isSome_iff]
  refine ⟨keyword, hkeyword, ?_⟩
  rw [List.drop_left, hspace, Bool.and_true,
    if_pos (List.isPrefixOf_iff_prefix.mpr (List.prefix_append ..))]
  rfl

/-- Where something is captured, there is a directive. -/
theorem captureAt_spec (h : d.captureAt text = some captured) : ∃ keyword ∈ d.keywords, ∃ rest,
    text = keyword ++ rest ∧ rest.head?.any inSpaceClass = true := by
  obtain ⟨keyword, hkeyword, h⟩ := List.exists_of_findSome?_eq_some h
  split at h
  next hbegin =>
    obtain ⟨rest, rfl⟩ := List.isPrefixOf_iff_prefix.mp hbegin
    refine ⟨keyword, hkeyword, rest, rfl, ?_⟩
    rw [List.drop_left] at h
    by_contra hspace
    rw [Bool.not_eq_true] at hspace
    cases d <;> simp [argument, firstWord, hspace] at h
  next => cases h

/-- Before the first directive there is no other one. -/
theorem firstDirective_spec (h : firstDirective line = some (d, behind)) : ∃ front,
    ∃ keyword ∈ d.keywords, line = front ++ (keyword ++ behind) ∧
      behind.head?.any inSpaceClass = true ∧
      ∀ before text, line = before ++ text → before.length < front.length →
        directiveAt text = none := by
  induction line with
  | nil => cases h
  | cons c line ih =>
    rw [firstDirective] at h
    cases hat : directiveAt (c :: line) with
    | some found =>
      rw [hat] at h
      obtain rfl := Option.some.inj h
      obtain ⟨keyword, hkeyword, hline, hspace⟩ := directiveAt_spec hat
      exact ⟨[], keyword, hkeyword, hline, hspace, fun _ _ _ hlt => absurd hlt (Nat.not_lt_zero _)⟩
    | none =>
      rw [hat] at h
      obtain ⟨front, keyword, hkeyword, rfl, hspace, hnone⟩ := ih h
      refine ⟨c :: front, keyword, hkeyword, rfl, hspace, fun before text htext hlt => ?_⟩
      cases before with
      | nil =>
        obtain rfl : c :: (front ++ (keyword ++ behind)) = text := htext
        exact hat
      | cons b before =>
        exact hnone before text (List.cons.inj htext).2 (Nat.lt_of_succ_lt_succ hlt)

theorem capture_eq_some (h : d.capture line = some captured) :
    ∃ before text, line = before ++ text ∧ d.captureAt text = some captured := by
  induction line with
  | nil => cases h
  | cons c line ih =>
    rw [Directive.capture] at h
    split at h
    next hat => exact ⟨[], c :: line, rfl, hat.trans h⟩
    next =>
      obtain ⟨before, text, rfl, hat⟩ := ih h
      exact ⟨c :: before, text, rfl, hat⟩

theorem capture_append (hnone : ∀ before rest, front ++ text = before ++ rest →
      before.length < front.length → d.captureAt rest = none) :
    d.capture (front ++ text) = d.capture text := by
  induction front with
  | nil => rfl
  | cons c front ih =>
    rw [List.cons_append, Directive.capture,
      hnone [] (c :: (front ++ text)) rfl (Nat.succ_pos _)]
    refine ih fun before rest heq hlt => ?_
    exact hnone (c :: before) rest (congrArg (c :: ·) heq) (Nat.succ_lt_succ hlt)

theorem captureAt_eq_none (h : directiveAt text = none) : d.captureAt text = none := by
  by_contra hsome
  obtain ⟨captured, hcaptured⟩ := Option.ne_none_iff_exists'.mp hsome
  obtain ⟨keyword, hkeyword, rest, rfl, hspace⟩ := captureAt_spec hcaptured
  have hat := directiveAt_isSome hkeyword hspace
  rw [h] at hat
  cases hat

/-- A keyword is long, it begins with a percent sign, and there is no other one and no white space
in it. -/
theorem keyword_spec (l : WordList) : ∃ tail, l.keyword = '%' :: tail ∧ '%' ∉ tail ∧
    '\x00' ∉ l.keyword ∧ l.keyword.all (!inSpaceClass ·) = true ∧ 3 ≤ l.keyword.length := by
  cases l <;> exact ⟨_, rfl, by decide, by decide, by decide, by decide⟩

theorem captureAt_words (l : WordList) (behind : Text) :
    (Directive.words l).captureAt (l.keyword ++ behind) = argument behind := by
  rw [Directive.captureAt, Directive.keywords, List.findSome?_cons, List.findSome?_nil,
    if_pos (List.isPrefixOf_iff_prefix.mpr (List.prefix_append ..)), List.drop_left]
  dsimp only
  cases argument behind <;> rfl

/-- Behind a keyword that captures too little there is no second one. -/
theorem capture_words (hspace : behind.head?.any inSpaceClass = true) :
    (Directive.words l).capture (l.keyword ++ behind) = argument behind := by
  obtain ⟨tail, hkeyword, htail, -, hclass, hlong⟩ := keyword_spec l
  have hat := captureAt_words l behind
  rw [hkeyword, List.cons_append] at hat ⊢
  rw [Directive.capture, hat]
  cases hargument : argument behind with
  | some captured => rfl
  | none =>
    by_contra hsome
    obtain ⟨captured, hcaptured⟩ := Option.ne_none_iff_exists'.mp hsome
    obtain ⟨before, text, heq, hsecond⟩ := capture_eq_some hcaptured
    obtain ⟨keyword, hmem, rest, rfl, -⟩ := captureAt_spec hsecond
    obtain rfl : keyword = l.keyword := List.mem_singleton.mp hmem
    obtain ⟨front, rfl⟩ : l.keyword ++ rest <:+ behind := by
      rcases List.append_eq_append_iff.mp heq with ⟨more, -, hbehind⟩ | ⟨more, htail', hbehind⟩
      · exact ⟨more, hbehind.symm⟩
      · cases more with
        | nil => exact ⟨[], hbehind⟩
        | cons c more =>
          rw [hkeyword, List.cons_append] at hbehind
          obtain rfl := (List.cons.inj hbehind).1
          exact absurd (htail' ▸ List.mem_append_right _ (List.mem_cons_self ..)) htail
    have hfilter := length_filter_le_trim (front ++ (l.keyword ++ rest))
    have hkept : l.keyword.filter (!inSpaceClass ·) = l.keyword :=
      List.filter_eq_self.mpr (List.all_eq_true.mp hclass)
    rw [List.filter_append, List.filter_append, hkept, List.length_append,
      List.length_append] at hfilter
    have hthree : 3 ≤ (trim inSpaceClass (front ++ (l.keyword ++ rest))).length := by omega
    rw [argument, hspace, Bool.true_and, if_pos (decide_eq_true hthree)] at hargument
    cases hargument

theorem cText_eq_self (h : '\x00' ∉ line) : cText line = line :=
  List.takeWhile_eq_self_iff.mpr fun _ hc => decide_eq_true fun hnull => h (hnull ▸ hc)

/-- The list of a directive gets what is behind it, unless another one is found first. -/
theorem capture_line (hfirst : firstDirective line = some (.words l, behind))
    (hnull : '\x00' ∉ line) : (Directive.words l).capture (cText line) = argument behind := by
  obtain ⟨front, keyword, hmem, rfl, hspace, hnone⟩ := firstDirective_spec hfirst
  obtain rfl : keyword = l.keyword := List.mem_singleton.mp hmem
  rw [cText_eq_self hnull, capture_append fun before rest heq hlt =>
    captureAt_eq_none (hnone before rest heq hlt)]
  exact capture_words hspace

theorem directiveAt_append (h : d.captureAt text = some captured) (more : Text) :
    (directiveAt (text ++ more)).isSome = true := by
  obtain ⟨keyword, hkeyword, rest, rfl, hspace⟩ := captureAt_spec h
  rw [List.append_assoc]
  refine directiveAt_isSome hkeyword ?_
  cases rest with
  | nil => cases hspace
  | cons c rest => exact hspace

/-- A directive behind a null character is not seen. -/
theorem capture_unseen (hnull : '\x00' ∈ front) (hline : line = front ++ text)
    (hnone : ∀ before text, line = before ++ text → before.length < front.length →
      directiveAt text = none) : d.capture (cText line) = none := by
  by_contra hsome
  obtain ⟨captured, hcaptured⟩ := Option.ne_none_iff_exists'.mp hsome
  obtain ⟨before, rest, heq, hat⟩ := capture_eq_some hcaptured
  have hshort : before.length < front.length := by
    obtain ⟨seen, hidden, rfl⟩ := List.append_of_mem hnull
    have hseen : cText line = cText seen := by
      rw [hline, List.append_assoc, List.cons_append]
      exact takeWhile_append_stop rfl
    have hle : (cText seen).length ≤ seen.length :=
      (List.takeWhile_prefix _).length_le
    rw [← hseen, heq, List.length_append] at hle
    rw [List.length_append, List.length_cons]
    omega
  have hwhole : line = before ++ (rest ++ unseen line) := by
    rw [← List.append_assoc, ← heq, cText_append_unseen]
  have hfound := directiveAt_append hat (unseen line)
  rw [hnone before _ hwhole hshort] at hfound
  cases hfound

end Captures

/-! ### One line -/

/-- The directives that `Parse` looks for before another one. -/
def earlier (d : Directive) : List Directive := Directive.chain.takeWhile (· ≠ d)

/-- The words behind the first directive of a line are recorded. -/
structure Recordable (l : WordList) (line behind : Text) : Prop where
  /-- The line is not cut short. -/
  complete : '\x00' ∉ line
  /-- There is more than a word of one or two characters. -/
  long : 3 ≤ (trim inSpaceClass behind).length
  /-- No other white space than blanks and tabs is before the first word and behind the last. -/
  ends : trim inSpaceClass behind = trim isBlank behind
  /-- No directive that `Parse` looks for earlier follows in the line. -/
  first : ∀ d ∈ earlier (.words l), d.capture line = none

section Line
variable {α β : Type*} {parseParam : Text → Option Param} {m : ParsedModule} {d : Directive}
  {l : WordList} {line behind captured : Text}

/-- The first element with a result is one before which no element has a result. -/
theorem findSome?_pair [DecidableEq α] {f : α → Option β} {as : List α} {a : α} {b : β}
    (ha : a ∈ as) : as.findSome? (fun x => (f x).map (x, ·)) = some (a, b) ↔
      f a = some b ∧ ∀ x ∈ as.takeWhile (· ≠ a), f x = none := by
  induction as with
  | nil => cases ha
  | cons x as ih =>
    rw [List.findSome?_cons, List.takeWhile_cons]
    by_cases hx : x = a
    · subst hx
      rw [if_neg (by simp)]
      cases hf : f x with
      | some c => simp
      | none =>
        refine iff_of_false (fun hfind => ?_) (by simp)
        obtain ⟨y, -, hy⟩ := List.exists_of_findSome?_eq_some hfind
        obtain ⟨c, hc, heq⟩ := Option.map_eq_some_iff.mp hy
        obtain ⟨rfl, -⟩ := Prod.mk.inj heq
        rw [hf] at hc
        cases hc
    · have hmem := (List.mem_cons.mp ha).resolve_left (Ne.symm hx)
      rw [if_pos (by simpa using hx), List.forall_mem_cons]
      cases hf : f x with
      | some c => simp [hx]
      | none =>
        rw [eq_self, true_and]
        exact ih hmem

theorem matchLine_eq_some_iff : matchLine line = some (d, captured) ↔
    d.capture (cText line) = some captured ∧
      ∀ d' ∈ earlier d, d'.capture (cText line) = none :=
  findSome?_pair (mem_chain d)

/-- The other directives leave the lists of words alone. -/
theorem get_obey_other (hd : ∀ l', d ≠ .words l') :
    l.get (obey parseParam m captured d).2 = l.get m := by
  cases d with
  | words l' => exact absurd rfl (hd l')
  | name | desc | provides | param =>
    rw [obey]
    split <;> cases l <;> rfl
  | attributes | ifileOpt | target => cases l <;> rfl

theorem get_obey : l.get (obey parseParam m captured d).2 =
    if d = .words l then l.get m ++ splitWords captured else l.get m := by
  by_cases hd : d = .words l
  · subst hd
    rw [if_pos rfl, obey, WordList.get_add, if_pos rfl]
  · rw [if_neg hd]
    by_cases hwords : ∃ l', d = .words l'
    · obtain ⟨l', rfl⟩ := hwords
      rw [obey, WordList.get_add, if_neg]
      rintro rfl
      exact hd rfl
    · exact get_obey_other fun l' heq => hwords ⟨l', heq⟩

/-- A line changes a list only if it is matched by its directive. -/
theorem get_readLine (hne : l.get (readLine parseParam m line).2 ≠ l.get m) :
    ∃ captured, matchLine line = some (.words l, captured) ∧
      l.get (readLine parseParam m line).2 = l.get m ++ splitWords captured := by
  unfold readLine at hne ⊢
  cases hmatch : matchLine line with
  | none =>
    rw [hmatch] at hne
    exact absurd rfl hne
  | some found =>
    obtain ⟨d, captured⟩ := found
    rw [hmatch] at hne
    dsimp only at hne ⊢
    rw [get_obey] at hne ⊢
    split at hne
    next hd => exact ⟨captured, by rw [hd], if_pos hd⟩
    next => exact absurd rfl hne

theorem get_readLine_of_match (hmatch : matchLine line = some (.words l, captured)) :
    l.get (readLine parseParam m line).2 = l.get m ++ splitWords captured := by
  rw [readLine, hmatch]
  exact get_obey.trans (if_pos rfl)

theorem argument_eq_some (h : argument behind = some captured) :
    3 ≤ (trim inSpaceClass behind).length ∧ captured = trim inSpaceClass behind := by
  rw [argument] at h
  split at h
  next hboth =>
    exact ⟨of_decide_eq_true (Bool.and_eq_true_iff.mp hboth).2, (Option.some.inj h).symm⟩
  next => cases h

theorem null_not_mem_of_capture
    (h : (Directive.words l).capture (cText line) = some captured) : '\x00' ∉ captured := by
  obtain ⟨before, text, heq, hat⟩ := capture_eq_some h
  obtain ⟨keyword, hmem, rest, rfl, -⟩ := captureAt_spec hat
  obtain rfl : keyword = l.keyword := List.mem_singleton.mp hmem
  rw [captureAt_words] at hat
  rw [(argument_eq_some hat).2]
  intro hnull
  apply null_not_mem_cText line
  rw [heq]
  exact List.mem_append_right _ (List.mem_append_right _ (mem_of_mem_trim hnull))

/-- What the words behind the first directive of a line add to its list. -/
theorem records_line_iff (hfirst : firstDirective line = some (.words l, behind)) :
    l.get (readLine parseParam m line).2 = l.get m ++ blankWords behind ↔
      (blankWords behind ≠ [] → Recordable l line behind) := by
  obtain ⟨front, keyword, hmem, hline, hspace, hnone⟩ := firstDirective_spec hfirst
  obtain rfl : keyword = l.keyword := List.mem_singleton.mp hmem
  have hhidden : '\x00' ∈ front → ∀ captured, matchLine line ≠ some (.words l, captured) := by
    intro hnull captured hmatch
    have hcapture := (matchLine_eq_some_iff.mp hmatch).1
    rw [capture_unseen hnull hline hnone] at hcapture
    cases hcapture
  have hcut : '\x00' ∉ front → '\x00' ∉ behind → '\x00' ∉ line := by
    obtain ⟨-, -, -, hkeyword, -⟩ := keyword_spec l
    intro hfront hbehind hnull
    rw [hline, List.mem_append, List.mem_append] at hnull
    exact hnull.elim hfront fun hmore => hmore.elim hkeyword hbehind
  constructor
  · intro hrecorded hwords
    have hne : l.get (readLine parseParam m line).2 ≠ l.get m := by
      rw [hrecorded]
      simpa using hwords
    obtain ⟨captured, hmatch, hadded⟩ := get_readLine hne
    have hsame : blankWords captured = blankWords behind := by
      rw [hrecorded, splitWords_eq] at hadded
      exact (List.append_cancel_left hadded).symm
    obtain ⟨hcapture, hearlier⟩ := matchLine_eq_some_iff.mp hmatch
    have hbehind : '\x00' ∉ behind := by
      intro hnull
      have hfilter := congrArg List.flatten hsame
      rw [flatten_blankWords, flatten_blankWords] at hfilter
      have hkept : '\x00' ∈ behind.filter (!isBlank ·) := List.mem_filter.mpr ⟨hnull, rfl⟩
      rw [← hfilter] at hkept
      exact null_not_mem_of_capture hcapture (List.mem_filter.mp hkept).1
    have hcomplete := hcut (fun hnull => hhidden hnull _ hmatch) hbehind
    rw [capture_line hfirst hcomplete] at hcapture
    obtain ⟨hlong, rfl⟩ := argument_eq_some hcapture
    refine ⟨hcomplete, hlong, (blankWords_trim_iff behind).mp hsame, fun d hd => ?_⟩
    exact cText_eq_self hcomplete ▸ hearlier d hd
  · intro hrecordable
    by_cases hwords : blankWords behind = []
    · -- Blanks and tabs are not captured.
      rw [hwords, List.append_nil]
      by_contra hne
      obtain ⟨captured, hmatch, -⟩ := get_readLine hne
      have hblank := blankWords_eq_nil_iff.mp hwords
      have hbehind : '\x00' ∉ behind := fun hnull => absurd (hblank _ hnull) (by decide)
      have hcapture := (matchLine_eq_some_iff.mp hmatch).1
      rw [capture_line hfirst (hcut (fun hnull => hhidden hnull _ hmatch) hbehind)] at hcapture
      have hlong := (argument_eq_some hcapture).1
      rw [trim, List.dropWhile_eq_nil_iff.mpr fun c hc => isBlank_imp (hblank c hc)] at hlong
      exact absurd hlong (by decide)
    · obtain ⟨hcomplete, hlong, hends, hearlier⟩ := hrecordable hwords
      have hargument : argument behind = some (trim inSpaceClass behind) := by
        rw [argument, hspace, Bool.true_and, if_pos (decide_eq_true hlong)]
      have hmatch : matchLine line = some (.words l, trim inSpaceClass behind) := by
        refine matchLine_eq_some_iff.mpr ⟨(capture_line hfirst hcomplete).trans hargument, ?_⟩
        rw [cText_eq_self hcomplete]
        exact hearlier
      rw [get_readLine_of_match hmatch, splitWords_eq, (blankWords_trim_iff behind).mpr hends]

end Line

/-! ### The lines of a region -/

/-- A text with one region. What is behind the region is not read. -/
structure AwbText (text : Text) where
  before : List Text
  start : Text
  region : List Text
  stop : Text
  after : List Text
  lines : getLines text = before ++ start :: (region ++ stop :: after)
  outside : ∀ line ∈ before, hasStart line = false ∧ hasEnd line = false
  starts : hasStart start = true
  inside : ∀ line ∈ region, hasStart line = false ∧ hasEnd line = false
  stops : hasStart stop = false ∧ hasEnd stop = true

section Region
variable (parseParam : Text → Option Param)

/-- The module when `Parse` has come to a place in the region. -/
def AwbText.read {text : Text} (t : AwbText text) (front : List Text) : ParsedModule :=
  (readLines parseParam false newModule (t.before ++ t.start :: front)).2

/-- The words behind the first directive of each line are recorded in its list when the line has
been read, in their order and without additions. -/
def AwbText.RecordsAll {text : Text} (t : AwbText text) : Prop :=
  ∀ front line back, t.region = front ++ line :: back → ∀ l, l ≠ .conscript →
    ∀ behind, firstDirective line = some (.words l, behind) →
      l.get (t.read parseParam (front ++ [line])) =
        l.get (t.read parseParam front) ++ blankWords behind

/-- A line that ends `Parse`: a second name, description or type, or a parameter that cannot be
parsed. -/
def Ends (front : List Text) (line : Text) : Prop :=
  ∃ d captured, matchLine line = some (d, captured) ∧
    (d ∈ [Directive.name, .desc, .provides] ∧
        (∃ line' ∈ front, ∃ captured', matchLine line' = some (d, captured')) ∨
      d = .param ∧ parseParam captured = none)

/-- Each line with words behind its first directive is recordable, and none before it ends
`Parse`. -/
def AwbText.RecordsWhen {text : Text} (t : AwbText text) : Prop :=
  ∀ front line back, t.region = front ++ line :: back → ∀ l, l ≠ .conscript →
    ∀ behind, firstDirective line = some (.words l, behind) → blankWords behind ≠ [] →
      (∀ front' line' back', front = front' ++ line' :: back' → ¬ Ends parseParam front' line') ∧
        Recordable l line behind

/-- The loop inside the region. -/
def readRegion : ParsedModule → List Text → Bool × ParsedModule
  | m, [] => (true, m)
  | m, line :: lines =>
    match readLine parseParam m line with
    | (true, m) => readRegion m lines
    | (false, m) => (false, m)

variable {parseParam} {m : ParsedModule} {lines front : List Text} {line captured : Text}
  {d : Directive}

theorem readLines_region (hlines : ∀ line ∈ lines, hasStart line = false ∧ hasEnd line = false) :
    readLines parseParam true m lines = readRegion parseParam m lines := by
  induction lines generalizing m with
  | nil => rfl
  | cons line lines ih =>
    obtain ⟨hline, hlines⟩ := List.forall_mem_cons.mp hlines
    rw [readLines, readRegion, hline.1, hline.2, if_neg Bool.false_ne_true,
      if_neg Bool.false_ne_true, if_neg (by decide)]
    rcases readLine parseParam m line with ⟨_ | _, m'⟩
    · rfl
    · exact ih hlines

/-- The lines before the region are passed over. -/
theorem AwbText.readLines_start {text : Text} (t : AwbText text) (rest : List Text) :
    readLines parseParam false m (t.before ++ t.start :: rest) =
      readLines parseParam true m rest := by
  have houtside := t.outside
  generalize t.before = before at houtside ⊢
  induction before with
  | nil => rw [List.nil_append, readLines, if_pos t.starts, if_neg Bool.false_ne_true]
  | cons line before ih =>
    obtain ⟨hline, hbefore⟩ := List.forall_mem_cons.mp houtside
    rw [List.cons_append, readLines, hline.1, hline.2, if_neg Bool.false_ne_true,
      if_neg Bool.false_ne_true, if_pos Bool.not_false]
    exact ih hbefore

theorem AwbText.read_eq {text : Text} (t : AwbText text)
    (hfront : ∀ line ∈ front, hasStart line = false ∧ hasEnd line = false) :
    t.read parseParam front = (readRegion parseParam newModule front).2 := by
  rw [AwbText.read, t.readLines_start, readLines_region hfront]

theorem readRegion_append {back : List Text} : readRegion parseParam m (front ++ back) =
    if (readRegion parseParam m front).1 then
      readRegion parseParam (readRegion parseParam m front).2 back
    else readRegion parseParam m front := by
  induction front generalizing m with
  | nil => rfl
  | cons first front ih =>
    rw [List.cons_append, readRegion, readRegion]
    rcases readLine parseParam m first with ⟨_ | _, m'⟩
    · rfl
    · exact ih

/-- What a line adds to what the lines before it have left. -/
theorem readRegion_concat : readRegion parseParam m (front ++ [line]) =
    if (readRegion parseParam m front).1 then
      readLine parseParam (readRegion parseParam m front).2 line
    else readRegion parseParam m front := by
  have hline : readRegion parseParam (readRegion parseParam m front).2 [line] =
      readLine parseParam (readRegion parseParam m front).2 line := by
    rw [readRegion]
    rcases readLine parseParam (readRegion parseParam m front).2 line with ⟨_ | _, m'⟩ <;> rfl
  rw [readRegion_append, hline]

/-! ### What ends `Parse` -/

/-- What a directive has that may be there only once. -/
def Directive.field (m : ParsedModule) : Directive → Text
  | name => m.name
  | desc => m.desc
  | provides => m.provides
  | _ => []

theorem obey_fst : (obey parseParam m captured d).1 = false ↔
    d ∈ [Directive.name, .desc, .provides] ∧ d.field m ≠ [] ∨
      d = .param ∧ parseParam captured = none := by
  cases d with
  | name | desc | provides =>
    rw [obey]
    split
    next hfield => exact iff_of_true rfl (.inl ⟨by decide, hfield⟩)
    next hfield => simpa [Directive.field] using hfield
  | param =>
    rw [obey]
    split
    next hparam => simp [hparam]
    next hparam => exact iff_of_true rfl (.inr ⟨rfl, hparam⟩)
  | words l => simp [obey]
  | attributes | ifileOpt | target => simp [obey]

theorem captured_ne_nil (hd : d ∈ [Directive.name, .desc, .provides])
    (hmatch : matchLine line = some (d, captured)) : captured ≠ [] := by
  obtain ⟨before, text, -, hat⟩ := capture_eq_some (matchLine_eq_some_iff.mp hmatch).1
  obtain ⟨keyword, -, hat⟩ := List.exists_of_findSome?_eq_some hat
  split at hat
  next =>
    rintro rfl
    have hargument {rest : Text} (h : argument rest = some []) : False := by
      obtain ⟨hlong, hnil⟩ := argument_eq_some h
      rw [← hnil] at hlong
      exact absurd hlong (by decide)
    simp only [List.mem_cons, List.not_mem_nil, or_false] at hd
    rcases hd with rfl | rfl | rfl
    · exact hargument hat
    · exact hargument hat
    · simp only [firstWord] at hat
      split at hat
      next hboth =>
        have hne := of_decide_eq_true (Bool.and_eq_true_iff.mp hboth).2
        exact hne (Option.some.inj hat)
      next => cases hat
  next => cases hat

theorem field_add (l : WordList) (words : List Text) (d : Directive) :
    d.field (l.add m words) = d.field m := by
  cases l <;> cases d <;> rfl

/-- A directive gives its own field a value, and no other. -/
theorem field_obey {d' : Directive} (hd' : d' ∈ [Directive.name, .desc, .provides])
    (hgo : (obey parseParam m captured d).1 = true) (hcaptured : d = d' → captured ≠ []) :
    d'.field (obey parseParam m captured d).2 ≠ [] ↔ d'.field m ≠ [] ∨ d = d' := by
  by_cases hd : d = d'
  · subst hd
    refine iff_of_true ?_ (.inr rfl)
    simp only [List.mem_cons, List.not_mem_nil, or_false] at hd'
    rcases hd' with rfl | rfl | rfl
    all_goals
      rw [obey] at hgo ⊢
      split at hgo
      · cases hgo
      next hempty =>
        rw [if_neg hempty]
        exact hcaptured rfl
  · rw [or_iff_left hd]
    have hsame : d'.field (obey parseParam m captured d).2 = d'.field m := by
      simp only [List.mem_cons, List.not_mem_nil, or_false] at hd'
      cases d with
      | words l => exact field_add l _ d'
      | name | desc | provides | param =>
        rw [obey]
        rcases hd' with rfl | rfl | rfl
        all_goals first | exact absurd rfl hd | (split <;> rfl)
      | attributes | ifileOpt | target => rcases hd' with rfl | rfl | rfl <;> rfl
    rw [hsame]

theorem readLine_fst : (readLine parseParam m line).1 = false ↔
    ∃ d captured, matchLine line = some (d, captured) ∧
      (d ∈ [Directive.name, .desc, .provides] ∧ d.field m ≠ [] ∨
        d = .param ∧ parseParam captured = none) := by
  unfold readLine
  cases matchLine line with
  | none => simp
  | some found =>
    obtain ⟨d, captured⟩ := found
    dsimp only
    rw [obey_fst]
    constructor
    · exact fun hends => ⟨d, captured, rfl, hends⟩
    · rintro ⟨d', captured', heq, hends⟩
      obtain ⟨rfl, rfl⟩ := Prod.mk.inj (Option.some.inj heq)
      exact hends

theorem field_readLine (hd : d ∈ [Directive.name, .desc, .provides])
    (hgo : (readLine parseParam m line).1 = true) :
    d.field (readLine parseParam m line).2 ≠ [] ↔
      d.field m ≠ [] ∨ ∃ captured, matchLine line = some (d, captured) := by
  unfold readLine at hgo ⊢
  cases hmatch : matchLine line with
  | none => simp
  | some found =>
    obtain ⟨d', captured⟩ := found
    rw [hmatch] at hgo
    have hcaptured : d' = d → captured ≠ [] := by
      rintro rfl
      exact captured_ne_nil hd hmatch
    dsimp only at hgo ⊢
    rw [field_obey hd hgo hcaptured]
    simp

/-- A field has a value when a line of its directive has been read. -/
theorem field_readRegion (hd : d ∈ [Directive.name, .desc, .provides])
    (hgo : (readRegion parseParam newModule front).1 = true) :
    d.field (readRegion parseParam newModule front).2 ≠ [] ↔
      ∃ line ∈ front, ∃ captured, matchLine line = some (d, captured) := by
  induction front using List.reverseRecOn with
  | nil =>
    refine iff_of_false (fun hne => hne ?_) (by simp)
    simp only [List.mem_cons, List.not_mem_nil, or_false] at hd
    rcases hd with rfl | rfl | rfl <;> rfl
  | append_singleton front line ih =>
    rw [readRegion_concat] at hgo ⊢
    split at hgo
    next hfront =>
      rw [if_pos hfront, field_readLine hd hgo, ih hfront]
      simp [or_and_right, exists_or]
    next hfront => exact absurd hgo hfront

/-- The places in a list with one more element at the end. -/
theorem forall_split_concat {α : Type*} {P : List α → α → Prop} {as : List α} {a : α} :
    (∀ front b back, as ++ [a] = front ++ b :: back → P front b) ↔
      (∀ front b back, as = front ++ b :: back → P front b) ∧ P as a := by
  constructor
  · intro hall
    refine ⟨fun front b back heq => hall front b (back ++ [a]) ?_, hall as a [] rfl⟩
    rw [heq, List.append_assoc, List.cons_append]
  · rintro ⟨hall, hlast⟩ front b back heq
    rcases List.eq_nil_or_concat back with rfl | ⟨back, last, rfl⟩
    · obtain ⟨rfl, hb⟩ := List.append_inj' heq rfl
      obtain rfl := (List.cons.inj hb).1
      exact hlast
    · rw [List.concat_eq_append, ← List.cons_append, ← List.append_assoc] at heq
      exact hall front b back (List.append_inj' heq rfl).1

/-- The loop goes on as long as no line ends it. -/
theorem readRegion_fst : (readRegion parseParam newModule front).1 = true ↔
    ∀ front' line' back', front = front' ++ line' :: back' → ¬ Ends parseParam front' line' := by
  induction front using List.reverseRecOn with
  | nil =>
    refine iff_of_true rfl fun front' line' back' heq => ?_
    simp at heq
  | append_singleton front line ih =>
    have hends : (readRegion parseParam newModule front).1 = true →
        ((readLine parseParam (readRegion parseParam newModule front).2 line).1 = false ↔
          Ends parseParam front line) := by
      intro hfront
      rw [readLine_fst, Ends]
      refine exists_congr fun d => exists_congr fun captured => and_congr_right fun _ => ?_
      exact or_congr_left (and_congr_right fun hd => field_readRegion hd hfront)
    rw [readRegion_concat, forall_split_concat, ← ih]
    by_cases hfront : (readRegion parseParam newModule front).1 = true
    · rw [if_pos hfront, and_iff_right hfront, ← hends hfront, Bool.not_eq_false]
    · rw [if_neg hfront]
      exact iff_of_false hfront fun hboth => hfront hboth.1

/-- Nothing is taken out of a list again. -/
theorem get_readRegion (l : WordList) (m : ParsedModule) (lines : List Text) :
    l.get m <+: l.get (readRegion parseParam m lines).2 := by
  induction lines generalizing m with
  | nil => exact List.prefix_rfl
  | cons line lines ih =>
    have hline : l.get m <+: l.get (readLine parseParam m line).2 := by
      by_cases hsame : l.get (readLine parseParam m line).2 = l.get m
      · rw [hsame]
      · obtain ⟨captured, -, hadded⟩ := get_readLine hsame
        rw [hadded]
        exact List.prefix_append ..
    rw [readRegion]
    rcases hread : readLine parseParam m line with ⟨_ | _, m'⟩
    · rw [hread] at hline
      exact hline
    · rw [hread] at hline
      exact hline.trans (ih m')

/-- The module is what the end of the region leaves. -/
theorem parseModule_snd {text : Text} (t : AwbText text) :
    (parseModule parseParam text).2 = t.read parseParam t.region := by
  have hregion : ∀ lines m, (∀ line ∈ lines, hasStart line = false ∧ hasEnd line = false) →
      readLines parseParam true m (lines ++ t.stop :: t.after) = readRegion parseParam m lines := by
    intro lines
    induction lines with
    | nil =>
      intro m _
      rw [List.nil_append, readLines, t.stops.1, t.stops.2, if_neg Bool.false_ne_true, if_pos rfl]
      rfl
    | cons line lines ih =>
      intro m hlines
      obtain ⟨hline, hlines⟩ := List.forall_mem_cons.mp hlines
      rw [List.cons_append, readLines, readRegion, hline.1, hline.2, if_neg Bool.false_ne_true,
        if_neg Bool.false_ne_true, if_neg (by decide)]
      rcases readLine parseParam m line with ⟨_ | _, m'⟩
      · rfl
      · exact ih m' hlines
  rw [t.read_eq t.inside, parseModule, t.lines, t.readLines_start, hregion _ _ t.inside]

/-- What is recorded for a line is in the list of the module that is parsed. -/
theorem AwbText.RecordsAll.in_module {text : Text} {t : AwbText text} {l : WordList}
    {behind : Text} {back : List Text} (hall : t.RecordsAll parseParam)
    (hregion : t.region = front ++ line :: back) (hl : l ≠ .conscript)
    (hfirst : firstDirective line = some (.words l, behind)) :
    l.get (t.read parseParam front) ++ blankWords behind <+:
      l.get (parseModule parseParam text).2 := by
  have hsplit : t.region = (front ++ [line]) ++ back := by
    rw [hregion, List.append_assoc, List.singleton_append]
  have hinside : ∀ line' ∈ front ++ [line], hasStart line' = false ∧ hasEnd line' = false :=
    fun line' hline' => t.inside line' (hsplit ▸ List.mem_append_left _ hline')
  rw [← hall front line back hregion l hl behind hfirst, parseModule_snd t, t.read_eq t.inside,
    t.read_eq hinside, hsplit]
  have happend : readRegion parseParam newModule ((front ++ [line]) ++ back) = _ :=
    readRegion_append
  rw [happend]
  split
  next => exact get_readRegion l _ back
  next => exact List.prefix_rfl

/-- The words are recorded exactly if no line before them ends `Parse`, their line is seen as a
whole and has more than a word of one or two characters, with blanks and tabs around them, and no
directive follows that `Parse` looks for earlier. -/
theorem recordsAll_iff {text : Text} (t : AwbText text) (parseParam : Text → Option Param) :
    t.RecordsAll parseParam ↔ t.RecordsWhen parseParam := by
  refine forall₃_congr fun front line back => forall_congr' fun hregion =>
    forall₂_congr fun l _ => forall₂_congr fun behind hfirst => ?_
  have hinside : ∀ line' ∈ front ++ [line], hasStart line' = false ∧ hasEnd line' = false := by
    intro line' hline'
    refine t.inside line' (hregion ▸ ?_)
    rw [List.append_cons]
    exact List.mem_append_left _ hline'
  have hfront := fun line' hline' => hinside line' (List.mem_append_left _ hline')
  rw [t.read_eq hinside, t.read_eq hfront, ← readRegion_fst, readRegion_concat]
  by_cases hgo : (readRegion parseParam newModule front).1 = true
  · rw [if_pos hgo, records_line_iff hfirst]
    exact forall_congr' fun _ => (and_iff_right hgo).symm
  · rw [if_neg hgo, List.self_eq_append_right]
    exact ⟨fun hnil hne => absurd hnil hne, fun hall => by
      by_contra hne
      exact hgo (hall hne).1⟩

end Region

/-- A required type with two characters. -/
def shortWord : AwbText "%AWB_START\n%requires ab\n%AWB_END\n".toList where
  before := []
  start := "%AWB_START".toList
  region := ["%requires ab".toList]
  stop := "%AWB_END".toList
  after := []
  lines := by decide +kernel
  outside := by decide
  starts := by decide +kernel
  inside := by decide +kernel
  stops := by decide +kernel

theorem not_recordsAll_shortWord : ¬ shortWord.RecordsAll fun _ => none := by
  intro hall
  have hline := hall [] "%requires ab".toList [] rfl .requires (by decide) " ab".toList
    (by decide +kernel)
  revert hline
  decide +kernel

end Awb.Apm
