import Awb.Lib.Splitting
import Awb.Util.MatchString
import Awb.Workspace.ExpandPath
import Mathlib.Tactic

/-! The file of the experiments: its lines, some of which go on in the next one, and the tokens of a
line, in which quoted parts are to be kept together. -/

namespace Awb.Run.Experiments

/-! ### Lines -/

/-- `/\\\s*$/` -/
def isContinued (exp : Text) : Bool := (exp.rdropWhile inSpaceClass).getLast? = some '\\'

/-- `s/ *\\\s*$/ /` -/
def dropContinuation (exp : Text) : Text :=
  (exp.rdropWhile inSpaceClass).dropLast.rdropWhile (· = ' ') ++ [' ']

/-- The lines of the experiments, with those that are continued joined. -/
def joinLines : Option Text → List Text → List Text
  | none, [] => []
  | some exp, [] => [exp]
  | pending, line :: lines =>
    let exp := pending.getD [] ++ line
    if isContinued exp then joinLines (some (dropContinuation exp)) lines
    else exp :: joinLines none lines

/-- `/^#/` and `/^[\t ]*$/` -/
def isSkipped (exp : Text) : Bool :=
  exp.head? = some '#' || exp.all fun c => c = ' ' || c = '\t'

/-- The experiments of a file, comments and blank lines left out. -/
def readLines (lines : List Text) : List Text :=
  (joinLines none lines).filter fun exp => !isSkipped exp

/-! ### Tokens -/

/-- `split(/ +/, …)`, which drops empty tokens at the end but not at the start. -/
def splitBlanks (text : Text) : List Text :=
  match text.splitOn ' ' with
  | [] => []
  | token :: tokens =>
    let tokens := tokens.filter (· ≠ [])
    if token = [] ∧ tokens = [] then [] else token :: tokens

def escapedQuote : Text := ['\\', '"']

/-- The loop over the parts between quotes. Every second one is quoted and put at the end of the
last token; without a token the program dies. -/
def splitParts : Bool → List Text → List Text → Option (List Text)
  | _, [], expv => some expv
  | false, part :: parts, expv => splitParts true parts (expv ++ splitBlanks part)
  | true, part :: parts, expv =>
    expv.getLast?.bind fun last =>
      splitParts false parts (expv.dropLast ++ [last ++ escapedQuote ++ part ++ escapedQuote])

def splitPreserveQuotes (exp : Text) : Option (List Text) :=
  let quoted := perlSplit '"' exp
  if quoted.length < 2 then some (splitBlanks exp) else splitParts false quoted []

/-! ### What the tokens should be -/

/-- The tokens from a place in the line on, where a token may have been begun: a blank that is not
quoted ends it, and a quote is written with a backslash. -/
def tokensFrom : Bool → Option Text → Text → List Text
  | _, token, [] => token.toList
  | quoted, token, c :: text =>
    if c = '"' then tokensFrom (!quoted) (some (token.getD [] ++ escapedQuote)) text
    else if c = ' ' ∧ quoted = false then token.toList ++ tokensFrom false none text
    else tokensFrom quoted (some (token.getD [] ++ [c])) text

def tokens (exp : Text) : List Text := tokensFrom false none exp

/-- The lines that the claim of the subroutine is about. -/
structure Plain (exp : Text) : Prop where
  balanced : exp.count '"' % 2 = 0
  noBackslash : '\\' ∉ exp
  begins : exp.head? ≠ some ' ' ∧ exp.head? ≠ some '"'

/-- The parts behind the first quote: quoted ones with nothing between them, then blanks, if the
last quoted part is empty at least one. -/
def Adjacent : List Text → Prop
  | [part, behind] => (behind = [] → part ≠ []) ∧ ∀ c ∈ behind, c = ' '
  | _ :: between :: parts => between = [] ∧ Adjacent parts
  | _ => False

/-- There are no quotes, or all quoted parts are the end of the last token. -/
def Glued (exp : Text) : Prop :=
  match exp.splitOn '"' with
  | [] => True
  | [_] => True
  | first :: parts => first.getLast? ≠ some ' ' ∧ Adjacent parts

/-! ### Outside quotes -/

variable {text w part exp t : Text} {token : Option Text} {quoted : Bool} {c : Char}
  {parts : List Text}

theorem tokensFrom_blank (token : Option Text) (text : Text) :
    tokensFrom false token (' ' :: text) = token.toList ++ tokensFrom false none text := by
  rw [tokensFrom, if_neg (by decide), if_pos ⟨rfl, rfl⟩]

theorem tokensFrom_char (hquote : c ≠ '"') (hblank : c ≠ ' ') (token : Option Text) (text : Text) :
    tokensFrom quoted token (c :: text) =
      tokensFrom quoted (some (token.getD [] ++ [c])) text := by
  rw [tokensFrom, if_neg hquote, if_neg fun h => hblank h.1]

theorem tokensFrom_quote (token : Option Text) (text : Text) :
    tokensFrom quoted token ('"' :: text) =
      tokensFrom (!quoted) (some (token.getD [] ++ escapedQuote)) text := by
  rw [tokensFrom, if_pos rfl]

theorem splitOn_blank (text : Text) : (' ' :: text).splitOn ' ' = [] :: text.splitOn ' ' := by
  rw [List.splitOn_eq_splitOnP, List.splitOnP_cons_eq_if_modifyHead, if_pos (by simp)]
  rw [List.splitOn_eq_splitOnP]

theorem splitOn_char (hblank : c ≠ ' ') {first : Text} {rest : List Text}
    (h : text.splitOn ' ' = first :: rest) : (c :: text).splitOn ' ' = (c :: first) :: rest := by
  rw [List.splitOn_eq_splitOnP] at h
  rw [List.splitOn_eq_splitOnP, List.splitOnP_cons_eq_if_modifyHead, if_neg (by simpa using hblank),
    h]
  rfl

theorem exists_splitOn (text : Text) (c : Char) : ∃ first rest, text.splitOn c = first :: rest := by
  rw [List.splitOn_eq_splitOnP]
  exact List.exists_cons_of_ne_nil (List.splitOnP_ne_nil _ _)

/-- Without quotes a begun token goes on with the first part. -/
theorem tokensFrom_some {first : Text} {rest : List Text} (hquote : '"' ∉ text)
    (h : text.splitOn ' ' = first :: rest) (t : Text) :
    tokensFrom false (some t) text = (t ++ first) :: rest.filter (· ≠ []) ∧
      tokensFrom false none text = (first :: rest).filter (· ≠ []) := by
  induction text generalizing first rest t with
  | nil =>
    obtain ⟨rfl, rfl⟩ := List.cons.inj (show [[]] = first :: rest from h)
    exact ⟨by simp [tokensFrom], rfl⟩
  | cons c text ih =>
    rw [List.mem_cons, not_or] at hquote
    obtain ⟨first', rest', hrest⟩ := exists_splitOn text ' '
    by_cases hblank : c = ' '
    · subst hblank
      rw [splitOn_blank, hrest] at h
      obtain ⟨rfl, rfl⟩ := List.cons.inj h
      obtain ⟨-, hnone⟩ := ih hquote.2 hrest t
      rw [tokensFrom_blank, tokensFrom_blank, hnone, List.append_nil]
      exact ⟨rfl, rfl⟩
    · rw [splitOn_char hblank hrest] at h
      obtain ⟨rfl, rfl⟩ := List.cons.inj h
      obtain ⟨hsome, -⟩ := ih hquote.2 hrest (t ++ [c])
      obtain ⟨hsome', -⟩ := ih hquote.2 hrest [c]
      rw [tokensFrom_char (Ne.symm hquote.1) hblank, tokensFrom_char (Ne.symm hquote.1) hblank]
      refine ⟨?_, ?_⟩
      · rw [Option.getD_some, hsome, List.append_assoc, List.singleton_append]
      · rw [Option.getD_none, List.nil_append, hsome', List.filter_cons_of_pos (by simp)]
        rfl

/-- A text that begins with a blank has an empty first token, if it has any. -/
theorem splitBlanks_blank (hquote : '"' ∉ text) : splitBlanks (' ' :: text) =
    if tokensFrom false none text = [] then [] else [] :: tokensFrom false none text := by
  obtain ⟨first, rest, hrest⟩ := exists_splitOn text ' '
  rw [splitBlanks, splitOn_blank, (tokensFrom_some hquote hrest []).2, hrest]
  simp

theorem splitBlanks_char (hquote : '"' ∉ c :: text) (hblank : c ≠ ' ') :
    splitBlanks (c :: text) = tokensFrom false none (c :: text) := by
  obtain ⟨first, rest, hrest⟩ := exists_splitOn text ' '
  have h := splitOn_char hblank hrest
  rw [(tokensFrom_some hquote h []).2, splitBlanks, h, List.filter_cons_of_pos (by simp)]
  simp

/-- The complete tokens of a text, and the one that is begun at its end. -/
def outside : Option Text → Text → List Text × Option Text
  | token, [] => ([], token)
  | token, c :: text =>
    if c = ' ' then (token.toList ++ (outside none text).1, (outside none text).2)
    else outside (some (token.getD [] ++ [c])) text

theorem tokensFrom_append (hquote : '"' ∉ w) (token : Option Text) (text : Text) :
    tokensFrom false token (w ++ text) =
      (outside token w).1 ++ tokensFrom false (outside token w).2 text := by
  induction w generalizing token with
  | nil => rfl
  | cons c w ih =>
    rw [List.mem_cons, not_or] at hquote
    rw [List.cons_append, outside]
    by_cases hblank : c = ' '
    · subst hblank
      rw [tokensFrom_blank, if_pos rfl, ih hquote.2, List.append_assoc]
    · rw [tokensFrom_char (Ne.symm hquote.1) hblank, if_neg hblank, ih hquote.2]

/-- A token is begun at the end if the last character is no blank. -/
theorem outside_isSome (hw : w ≠ []) (token : Option Text) :
    (outside token w).2 = none ↔ w.getLast? = some ' ' := by
  induction w generalizing token with
  | nil => exact absurd rfl hw
  | cons c w ih =>
    rw [outside]
    by_cases hnil : w = []
    · subst hnil
      by_cases hblank : c = ' ' <;> simp [hblank, outside]
    · have hlast : (c :: w).getLast? = w.getLast? := by
        obtain ⟨d, w, rfl⟩ := List.exists_cons_of_ne_nil hnil
        exact List.getLast?_cons_cons
      rw [hlast]
      split
      · exact ih hnil none
      · exact ih hnil _

theorem outside_ne_nil (token : Option Text) (htoken : token ≠ some []) :
    (∀ t ∈ (outside token w).1, t ≠ []) ∧ (outside token w).2 ≠ some [] := by
  induction w generalizing token with
  | nil => exact ⟨fun _ h => (nomatch h), htoken⟩
  | cons c w ih =>
    rw [outside]
    split
    · obtain ⟨hdone, hlast⟩ := ih none (by simp)
      refine ⟨fun t ht => ?_, hlast⟩
      rcases List.mem_append.mp ht with ht | ht
      · rintro rfl
        exact htoken (Option.mem_toList.mp ht)
      · exact hdone t ht
    · exact ih _ (by simp)

/-! ### Inside quotes, and behind them -/

theorem tokensFrom_inside (hquote : '"' ∉ part) (t text : Text) :
    tokensFrom true (some t) (part ++ text) = tokensFrom true (some (t ++ part)) text := by
  induction part generalizing t with
  | nil => rw [List.append_nil, List.nil_append]
  | cons c part ih =>
    rw [List.mem_cons, not_or] at hquote
    rw [List.cons_append, tokensFrom, if_neg (Ne.symm hquote.1), if_neg (by simp), Option.getD_some,
      ih hquote.2, List.append_assoc, List.singleton_append]

/-- A begun token is the beginning of the first one. -/
theorem exists_head (quoted : Bool) (t text : Text) :
    ∃ e rest, tokensFrom quoted (some t) text = (t ++ e) :: rest := by
  induction text generalizing quoted t with
  | nil => exact ⟨[], [], by simp [tokensFrom]⟩
  | cons c text ih =>
    rw [tokensFrom]
    split
    · obtain ⟨e, rest, h⟩ := ih (!quoted) (t ++ escapedQuote)
      exact ⟨escapedQuote ++ e, rest, by simpa using h⟩
    · split
      · exact ⟨[], tokensFrom false none text, by simp⟩
      · obtain ⟨e, rest, h⟩ := ih quoted (t ++ [c])
        exact ⟨c :: e, rest, by simpa using h⟩

/-- No token is empty. -/
theorem tokensFrom_ne_nil (quoted : Bool) (htoken : token ≠ some []) :
    ∀ t ∈ tokensFrom quoted token text, t ≠ [] := by
  induction text generalizing quoted token with
  | nil =>
    rintro t ht rfl
    exact htoken (Option.mem_toList.mp ht)
  | cons c text ih =>
    rw [tokensFrom]
    split
    · exact ih _ (by simp [escapedQuote])
    · split
      · intro t ht
        rcases List.mem_append.mp ht with ht | ht
        · rintro rfl
          exact htoken (Option.mem_toList.mp ht)
        · exact ih false (by simp) t ht
      · exact ih _ (by simp)

theorem tokensFrom_eq_nil_iff (hquote : '"' ∉ text) :
    tokensFrom false none text = [] ↔ ∀ c ∈ text, c = ' ' := by
  induction text with
  | nil => exact ⟨fun _ _ h => (nomatch h), fun _ => rfl⟩
  | cons c text ih =>
    rw [List.mem_cons, not_or] at hquote
    by_cases hblank : c = ' '
    · subst hblank
      rw [tokensFrom_blank, List.forall_mem_cons, ← ih hquote.2]
      simp
    · obtain ⟨e, rest, h⟩ := exists_head false [c] text
      rw [tokensFrom_char (Ne.symm hquote.1) hblank]
      refine ⟨fun hnil => ?_, fun hall => absurd (hall c List.mem_cons_self) hblank⟩
      rw [Option.getD_none, List.nil_append, h] at hnil
      cases hnil

/-! ### The loop -/

/-- The last token after a quoted part. -/
def withQuoted (t part : Text) : Text := t ++ escapedQuote ++ part ++ escapedQuote

theorem withQuoted_eq (t part : Text) :
    withQuoted t part = t ++ (escapedQuote ++ part ++ escapedQuote) := by
  rw [withQuoted, List.append_assoc, List.append_assoc, List.append_assoc]

theorem quoted_ne_nil (part : Text) : escapedQuote ++ part ++ escapedQuote ≠ [] :=
  List.cons_ne_nil _ _

/-- What the loop makes of the last token, where the first part is quoted. -/
def goOn : Text → List Text → List Text
  | t, [] => [t]
  | t, [part] => [withQuoted t part]
  | t, part :: between :: parts =>
    match splitBlanks between with
    | [] => goOn (withQuoted t part) parts
    | token :: tokens => withQuoted t part :: ((token :: tokens).dropLast ++
        goOn ((token :: tokens).getLast (List.cons_ne_nil _ _)) parts)

theorem splitParts_concat (before : List Text) (t : Text) (parts : List Text) :
    splitParts true parts (before ++ [t]) = some (before ++ goOn t parts) := by
  induction t, parts using goOn.induct generalizing before with
  | case1 t => rfl
  | case2 t part =>
    rw [splitParts, List.getLast?_concat, Option.bind_some, List.dropLast_concat]
    rfl
  | case3 t part between parts hnil ih =>
    rw [splitParts, List.getLast?_concat, Option.bind_some, List.dropLast_concat, splitParts, goOn,
      hnil, List.append_nil]
    exact ih before
  | case4 t part between parts token tokens hsplit ih =>
    rw [splitParts, List.getLast?_concat, Option.bind_some, List.dropLast_concat, splitParts, goOn,
      hsplit]
    have hlast := List.dropLast_append_getLast (List.cons_ne_nil token tokens)
    have h := ih (before ++ [withQuoted t part] ++ (token :: tokens).dropLast)
    rw [List.append_assoc (before ++ [withQuoted t part]), hlast] at h
    rw [show t ++ escapedQuote ++ part ++ escapedQuote = withQuoted t part from rfl, h]
    simp

theorem goOn_head (t : Text) {parts : List Text} (hne : parts ≠ []) :
    ∃ e rest, goOn t parts = (t ++ e) :: rest ∧ e ≠ [] := by
  induction t, parts using goOn.induct with
  | case1 t => exact absurd rfl hne
  | case2 t part => exact ⟨_, [], by rw [goOn, withQuoted_eq], quoted_ne_nil part⟩
  | case3 t part between parts hnil ih =>
    rw [goOn, hnil]
    by_cases hparts : parts = []
    · subst hparts
      exact ⟨_, [], by simp only [goOn, withQuoted_eq], quoted_ne_nil part⟩
    · obtain ⟨e, rest, hgo, he⟩ := ih hparts
      refine ⟨escapedQuote ++ part ++ escapedQuote ++ e, rest, ?_,
        List.append_ne_nil_of_right_ne_nil _ he⟩
      simp only [hgo]
      simp only [withQuoted_eq, List.append_assoc]
  | case4 t part between parts token tokens hsplit ih =>
    rw [goOn, hsplit]
    exact ⟨_, _, by simp only [withQuoted_eq]; rfl, quoted_ne_nil part⟩

/-- The text of parts with a quote before each. -/
def quoteText : List Text → Text
  | [] => []
  | part :: parts => '"' :: (part ++ quoteText parts)

/-- Expected behind a begun token: a quoted part, and one that is not. -/
theorem tokensFrom_quoteText {between : Text} (hpart : '"' ∉ part) (t : Text) :
    tokensFrom false (some t) (quoteText (part :: between :: parts)) =
      tokensFrom false (some (withQuoted t part)) (between ++ quoteText parts) := by
  rw [quoteText, quoteText, tokensFrom_quote, Bool.not_false, Option.getD_some,
    tokensFrom_inside hpart, tokensFrom_quote, Bool.not_true, Option.getD_some]
  rfl

/-- Two texts that go on differently behind a common beginning. -/
theorem append_ne_self {e : Text} (he : e ≠ []) (t : Text) : t ++ e ≠ t := by
  intro h
  exact he (List.append_right_eq_self.mp h)

theorem exists_quoteText_head (t : Text) {parts : List Text} (hne : parts ≠ []) :
    ∃ e rest, tokensFrom false (some t) (quoteText parts) = (t ++ e) :: rest ∧ e ≠ [] := by
  obtain ⟨part, parts, rfl⟩ := List.exists_cons_of_ne_nil hne
  rw [quoteText, tokensFrom_quote, Option.getD_some]
  obtain ⟨e, rest, h⟩ := exists_head true (t ++ escapedQuote) (part ++ quoteText parts)
  exact ⟨escapedQuote ++ e, rest, by simpa using h, by simp [escapedQuote]⟩

/-- A part with other characters than blanks behind a quoted part: the loop begins a token at its
start, or makes an empty one. -/
theorem goOn_ne_of_between {between : Text} (hpart : '"' ∉ part) (hbetween : '"' ∉ between)
    (hchar : ∃ c ∈ between, c ≠ ' ') (t : Text) (parts' : List Text) :
    goOn t (part :: between :: parts') ≠
      tokensFrom false (some t) (quoteText (part :: between :: parts)) := by
  rw [tokensFrom_quoteText hpart]
  obtain ⟨c, rest, rfl⟩ := List.exists_cons_of_ne_nil
    (List.ne_nil_of_mem hchar.choose_spec.1)
  by_cases hblank : c = ' '
  · subst hblank
    have hrest : '"' ∉ rest := fun h => hbetween (List.mem_cons_of_mem _ h)
    have hne : tokensFrom false none rest ≠ [] := by
      rw [Ne, tokensFrom_eq_nil_iff hrest]
      obtain ⟨d, hd, hdblank⟩ := hchar
      exact fun hall => hdblank ((List.mem_cons.mp hd).elim id (hall d))
    rw [goOn, splitBlanks_blank hrest, if_neg hne]
    intro h
    rw [List.cons_append, tokensFrom_blank, Option.toList_some, List.singleton_append] at h
    have htail := (List.cons.inj h).2
    obtain ⟨u, us, hu⟩ := List.exists_cons_of_ne_nil hne
    rw [hu, List.dropLast_cons_of_ne_nil (List.cons_ne_nil _ _)] at htail
    have hnil : [] ∈ tokensFrom false none (rest ++ quoteText parts) := by
      rw [← htail]
      exact List.mem_cons_self
    exact tokensFrom_ne_nil false (by simp) _ hnil rfl
  · rw [goOn, splitBlanks_char hbetween hblank]
    have hquote : c ≠ '"' := fun h => hbetween (h ▸ List.mem_cons_self)
    rw [List.cons_append, tokensFrom_char hquote hblank (some _), Option.getD_some]
    obtain ⟨e, us, h⟩ := exists_head false (withQuoted t part ++ [c]) (rest ++ quoteText parts)
    obtain ⟨e', us', h'⟩ := exists_head false [c] rest
    have hsplit : tokensFrom false none (c :: rest) = ([c] ++ e') :: us' := by
      rw [tokensFrom_char hquote hblank, ← h']
      rfl
    rw [h, hsplit]
    intro heq
    have hhead := (List.cons.inj heq).1
    rw [List.append_assoc] at hhead
    exact append_ne_self (by simp) _ hhead.symm

theorem rdropWhile_cons (p : Text → Bool) (part : Text) (parts : List Text) :
    (part :: parts).rdropWhile p =
      if parts.rdropWhile p = [] then (if p part then [] else [part])
      else part :: parts.rdropWhile p := by
  rw [List.rdropWhile, List.rdropWhile, List.reverse_cons, List.dropWhile_append]
  cases hrest : parts.reverse.dropWhile p with
  | nil => cases hp : p part <;> simp [hp]
  | cons a rest => simp

theorem splitBlanks_blanks {between : Text} (h : ∀ c ∈ between, c = ' ') :
    splitBlanks between = [] := by
  cases between with
  | nil => rfl
  | cons c between =>
    obtain rfl := h c List.mem_cons_self
    have hquote : '"' ∉ between := fun hq => absurd (h _ (List.mem_cons_of_mem _ hq)) (by decide)
    have hrest : ∀ c ∈ between, c = ' ' := fun c hc => h c (List.mem_cons_of_mem _ hc)
    rw [splitBlanks_blank hquote, if_pos ((tokensFrom_eq_nil_iff hquote).mpr hrest)]

/-- Blanks end a begun token. -/
theorem tokensFrom_blanks {between : Text} (h : ∀ c ∈ between, c = ' ') (hne : between ≠ [])
    (token : Option Text) (text : Text) :
    tokensFrom false token (between ++ text) = token.toList ++ tokensFrom false none text := by
  induction between generalizing token with
  | nil => exact absurd rfl hne
  | cons c between ih =>
    obtain rfl := h c List.mem_cons_self
    rw [List.cons_append, tokensFrom_blank]
    by_cases hnil : between = []
    · rw [hnil, List.nil_append]
    · rw [ih (fun c hc => h c (List.mem_cons_of_mem _ hc)) hnil]
      rfl

/-- Behind a begun token, which the first quote goes on with: the loop without the empty parts at
the end of the line does what is expected if the quoted parts are adjacent. -/
theorem goOn_eq_iff (parts : List Text) (hquotes : ∀ part ∈ parts, '"' ∉ part)
    (heven : parts.length % 2 = 0) (hne : parts ≠ []) (t : Text) :
    goOn t (parts.rdropWhile List.isEmpty) = tokensFrom false (some t) (quoteText parts) ↔
      Adjacent parts := by
  match parts, hquotes, heven, hne with
  | [part, behind], hquotes, _, _ =>
    have hpart := hquotes part (by simp)
    have hbehind := hquotes behind (by simp)
    rw [rdropWhile_cons, rdropWhile_cons, List.rdropWhile_nil, if_pos rfl, Adjacent]
    by_cases hnil : behind = []
    · subst hnil
      rw [tokensFrom_quoteText hpart]
      by_cases hempty : part = []
      · subst hempty
        refine iff_of_false (fun h => ?_) (by simp)
        have hhead : t = withQuoted t [] := (List.cons.inj h).1
        rw [withQuoted_eq] at hhead
        exact append_ne_self (quoted_ne_nil []) t hhead.symm
      · have hisEmpty : part.isEmpty = false := by simpa using hempty
        simp only [List.isEmpty_nil, if_true, hisEmpty]
        exact iff_of_true rfl ⟨fun _ => hempty, fun _ h => nomatch h⟩
    · have hisEmpty : behind.isEmpty = false := by simpa using hnil
      simp only [hisEmpty, Bool.false_eq_true, if_false, List.cons_ne_nil]
      by_cases hblanks : ∀ c ∈ behind, c = ' '
      · refine iff_of_true ?_ ⟨fun h => absurd h hnil, hblanks⟩
        rw [tokensFrom_quoteText hpart, quoteText, tokensFrom_blanks hblanks hnil, goOn,
          splitBlanks_blanks hblanks]
        rfl
      · refine iff_of_false ?_ fun h => hblanks h.2
        exact goOn_ne_of_between hpart hbehind (by simpa using hblanks) t []
  | part :: between :: next :: parts, hquotes, heven, _ =>
    have hpart := hquotes part (by simp)
    have hbetween := hquotes between (by simp)
    have hrest : ∀ part ∈ next :: parts, '"' ∉ part := fun p hp => hquotes p (by
      exact List.mem_cons_of_mem _ (List.mem_cons_of_mem _ hp))
    have heven' : (next :: parts).length % 2 = 0 := by
      simp only [List.length_cons] at heven ⊢
      omega
    have ih := goOn_eq_iff _ hrest heven' (List.cons_ne_nil _ _) (withQuoted t part)
    obtain ⟨e, us, hexpected, he⟩ := exists_quoteText_head (withQuoted t part)
      (List.cons_ne_nil next parts)
    rw [rdropWhile_cons, rdropWhile_cons]
    by_cases hnil : between = []
    · subst hnil
      have hadjacent : Adjacent (part :: [] :: next :: parts) ↔ Adjacent (next :: parts) := by
        rw [Adjacent]
        · exact and_iff_right rfl
        · exact fun h => List.cons_ne_nil _ _ h
      rw [hadjacent, ← ih, tokensFrom_quoteText hpart, List.nil_append]
      by_cases htail : (next :: parts).rdropWhile List.isEmpty = []
      · rw [htail, if_pos rfl, List.isEmpty_nil, if_pos rfl, if_pos rfl, hexpected]
        refine iff_of_false ?_ ?_
        · split
          · intro h
            have hhead := (List.cons.inj h).1
            rw [withQuoted_eq, List.append_assoc] at hhead
            exact append_ne_self (List.append_ne_nil_of_left_ne_nil (quoted_ne_nil part) _) t
              hhead.symm
          · exact fun h => append_ne_self he _ (List.cons.inj h).1.symm
        · exact fun h => append_ne_self he _ (List.cons.inj h).1.symm
      · rw [if_neg htail, if_neg (List.cons_ne_nil _ _), goOn]
        rfl
    · have hisEmpty : between.isEmpty = false := by simpa using hnil
      have hadjacent : ¬Adjacent (part :: between :: next :: parts) := by
        rw [Adjacent]
        · exact fun h => hnil h.1
        · exact fun h => List.cons_ne_nil _ _ h
      have hkept : (if (next :: parts).rdropWhile List.isEmpty = [] then
            if between.isEmpty = true then [] else [between]
          else between :: (next :: parts).rdropWhile List.isEmpty) =
          between :: (next :: parts).rdropWhile List.isEmpty := by
        by_cases htail : (next :: parts).rdropWhile List.isEmpty = []
        · rw [if_pos htail, htail, hisEmpty]
          rfl
        · rw [if_neg htail]
      rw [hkept, if_neg (List.cons_ne_nil _ _)]
      refine iff_of_false ?_ hadjacent
      by_cases hblanks : ∀ c ∈ between, c = ' '
      · rw [tokensFrom_quoteText hpart, tokensFrom_blanks hblanks hnil, goOn,
          splitBlanks_blanks hblanks, Option.toList_some, List.singleton_append]
        by_cases htail : (next :: parts).rdropWhile List.isEmpty = []
        · rw [htail]
          intro h
          obtain ⟨e, us, hnext⟩ := exists_head true ([] ++ escapedQuote) (next ++ quoteText parts)
          have htokens := (List.cons.inj h).2
          rw [quoteText, tokensFrom_quote, Bool.not_false, Option.getD_none, hnext] at htokens
          cases htokens
        · obtain ⟨e, us, hgo, he⟩ := goOn_head (withQuoted t part) htail
          simp only [hgo]
          exact fun h => append_ne_self he _ (List.cons.inj h).1
      · exact goOn_ne_of_between hpart hbetween (by simpa using hblanks) t _

/-! ### The whole line -/

theorem intercalate_quote (first : Text) (parts : List Text) :
    ['"'].intercalate (first :: parts) = first ++ quoteText parts := by
  induction parts generalizing first with
  | nil => simp [quoteText]
  | cons part parts ih =>
    rw [List.intercalate_cons_cons, ih, quoteText, List.append_assoc, List.singleton_append]

theorem count_quoteText (hquotes : ∀ part ∈ parts, '"' ∉ part) :
    (quoteText parts).count '"' = parts.length := by
  induction parts with
  | nil => rfl
  | cons part parts ih =>
    obtain ⟨hpart, hparts⟩ := List.forall_mem_cons.mp hquotes
    rw [quoteText, List.count_cons_self, List.count_append, List.count_eq_zero_of_not_mem hpart,
      ih hparts, List.length_cons, Nat.zero_add]

/-- The parts of a line between its quotes. -/
theorem exists_parts (exp : Text) : ∃ first parts, exp.splitOn '"' = first :: parts ∧
    exp = first ++ quoteText parts ∧ '"' ∉ first ∧ (∀ part ∈ parts, '"' ∉ part) ∧
    exp.count '"' = parts.length := by
  obtain ⟨first, parts, hsplit⟩ := exists_splitOn exp '"'
  have hquotes : ∀ part ∈ first :: parts, '"' ∉ part := fun part hpart =>
    Splitting.notMem_of_mem_splitOn (hsplit ▸ hpart)
  obtain ⟨hfirst, hparts⟩ := List.forall_mem_cons.mp hquotes
  have hexp : exp = first ++ quoteText parts := by
    rw [← intercalate_quote, ← hsplit]
    exact (List.intercalate_splitOn '"').symm
  refine ⟨first, parts, hsplit, hexp, hfirst, hparts, ?_⟩
  rw [hexp, List.count_append, List.count_eq_zero_of_not_mem hfirst, count_quoteText hparts,
    Nat.zero_add]

theorem mem_of_mem_splitBlanks {token : Text} (htoken : token ∈ splitBlanks text)
    (hc : c ∈ token) : c ∈ text := by
  obtain ⟨first, rest, hsplit⟩ := exists_splitOn text ' '
  have hmem : token ∈ text.splitOn ' ' := by
    rw [splitBlanks, hsplit] at htoken
    simp only at htoken
    rw [hsplit]
    split at htoken
    next => cases htoken
    next =>
      exact (List.mem_cons.mp htoken).elim (fun h => h ▸ List.mem_cons_self)
        fun h => List.mem_cons_of_mem _ (List.mem_filter.mp h).1
  exact Splitting.mem_of_mem_splitOn hmem hc

theorem Plain.first (h : Plain exp) {first : Text} (hexp : exp = first ++ quoteText parts)
    (hne : parts ≠ []) : ∃ c rest, first = c :: rest ∧ c ≠ ' ' := by
  cases first with
  | nil =>
    obtain ⟨part, parts, rfl⟩ := List.exists_cons_of_ne_nil hne
    exact absurd (by rw [hexp]; rfl) h.begins.2
  | cons c rest =>
    refine ⟨c, rest, rfl, ?_⟩
    rintro rfl
    exact h.begins.1 (by rw [hexp]; rfl)

/-- The subroutine returns the tokens if the quoted parts of the line, if there are any, are the end
of its last token. -/
theorem splitPreserveQuotes_eq_tokens_iff (h : Plain exp) :
    splitPreserveQuotes exp = some (tokens exp) ↔ Glued exp := by
  obtain ⟨first, parts, hsplit, hexp, hfirst, hparts, hcount⟩ := exists_parts exp
  have hperl : perlSplit '"' exp = (first :: parts).rdropWhile List.isEmpty := by
    rw [perlSplit, hsplit]
  by_cases hnil : parts = []
  · -- no quotes
    subst hnil
    rw [Glued, hsplit]
    refine iff_of_true ?_ trivial
    obtain rfl : exp = first := by rw [hexp, quoteText, List.append_nil]
    have hlength : (perlSplit '"' exp).length < 2 := by
      rw [hperl, List.rdropWhile_singleton]
      split <;> simp
    rw [splitPreserveQuotes, if_pos hlength]
    cases exp with
    | nil => rfl
    | cons c rest =>
      have hblank : c ≠ ' ' := by
        rintro rfl
        exact h.begins.1 rfl
      rw [splitBlanks_char hfirst hblank]
      rfl
  · obtain ⟨c, rest, hcons, hblank⟩ := h.first hexp hnil
    have hnonempty : first.isEmpty = false := by rw [hcons]; rfl
    have hglued : Glued exp ↔ first.getLast? ≠ some ' ' ∧ Adjacent parts := by
      obtain ⟨part, parts, rfl⟩ := List.exists_cons_of_ne_nil hnil
      rw [Glued, hsplit]
    have heven : parts.length % 2 = 0 := hcount ▸ h.balanced
    have hfirsts : splitBlanks first = (outside none first).1 ++ (outside none first).2.toList := by
      rw [hcons] at hfirst ⊢
      rw [splitBlanks_char hfirst hblank]
      have := tokensFrom_append hfirst none []
      rwa [List.append_nil] at this
    have hexpected : tokens exp =
        (outside none first).1 ++ tokensFrom false (outside none first).2 (quoteText parts) := by
      rw [tokens, hexp, tokensFrom_append hfirst]
    rw [hglued, hexpected, splitPreserveQuotes, hperl, rdropWhile_cons, hnonempty]
    by_cases htail : parts.rdropWhile List.isEmpty = []
    · -- nothing but empty parts: the quotes are left as they are
      rw [if_pos htail]
      refine iff_of_false (fun heq => ?_) fun hboth => ?_
      · have hsplit' : splitBlanks exp =
            (outside none first).1 ++ tokensFrom false (outside none first).2 (quoteText parts) :=
          Option.some.inj heq
        obtain ⟨part, parts, rfl⟩ := List.exists_cons_of_ne_nil hnil
        rw [quoteText, tokensFrom_quote] at hsplit'
        obtain ⟨e, us, hhead⟩ := exists_head (!false)
          ((outside none first).2.getD [] ++ escapedQuote) (part ++ quoteText parts)
        rw [hhead] at hsplit'
        have hmem : (outside none first).2.getD [] ++ escapedQuote ++ e ∈ splitBlanks exp := by
          rw [hsplit']
          exact List.mem_append_right _ List.mem_cons_self
        exact h.noBackslash (mem_of_mem_splitBlanks hmem (by simp [escapedQuote]))
      · have hgo := (goOn_eq_iff parts hparts heven hnil []).mpr hboth.2
        obtain ⟨e, us, hhead, he⟩ := exists_quoteText_head [] hnil
        rw [htail, hhead] at hgo
        exact append_ne_self he [] (List.cons.inj hgo).1.symm
    · obtain ⟨part, parts', htail'⟩ := List.exists_cons_of_ne_nil htail
      have hlength : ¬(first :: parts.rdropWhile List.isEmpty).length < 2 := by
        rw [htail', List.length_cons, List.length_cons]
        omega
      rw [if_neg htail, if_neg hlength, splitParts, List.nil_append, hfirsts]
      cases hlast : (outside none first).2 with
      | some t =>
        have hend : first.getLast? ≠ some ' ' := fun hblank => by
          rw [← outside_isSome (by rw [hcons]; exact List.cons_ne_nil _ _) none, hlast] at hblank
          cases hblank
        rw [Option.toList_some, splitParts_concat, Option.some_inj, List.append_cancel_left_eq,
          goOn_eq_iff parts hparts heven hnil]
        exact (and_iff_right hend).symm
      | none =>
        have hend : first.getLast? = some ' ' :=
          (outside_isSome (by rw [hcons]; exact List.cons_ne_nil _ _) none).mp hlast
        refine iff_of_false ?_ fun hboth => hboth.1 hend
        have hdone : (outside none first).1 ≠ [] := by
          intro hdone
          have hfirst' : '"' ∉ c :: rest := hcons ▸ hfirst
          rw [hdone, hlast, hcons, splitBlanks_char hfirst' hblank] at hfirsts
          exact hblank ((tokensFrom_eq_nil_iff hfirst').mp hfirsts c List.mem_cons_self)
        obtain hnone | ⟨before, t, hbefore⟩ := List.eq_nil_or_concat (outside none first).1
        · exact absurd hnone hdone
        · rw [hbefore, List.concat_eq_append, Option.toList_none, List.append_nil,
            splitParts_concat]
          intro heq
          obtain ⟨e, us, hgo, he⟩ := goOn_head t htail
          rw [hgo, List.append_assoc] at heq
          have htokens := List.append_cancel_left (Option.some.inj heq)
          exact append_ne_self he t (List.cons.inj htokens).1

/-- A quoted part that a blank follows, and another token behind it. -/
theorem not_tokens_twoTokens : ∃ exp, Plain exp ∧ splitPreserveQuotes exp ≠ some (tokens exp) := by
  refine ⟨"n m x=\"a b\" y".toList, ⟨by decide, by decide, by decide⟩, ?_⟩
  decide

theorem tokens_lastQuoted :
    splitPreserveQuotes "n m x=\"a b\"".toList = some (tokens "n m x=\"a b\"".toList) :=
  (splitPreserveQuotes_eq_tokens_iff ⟨by decide, by decide, by decide⟩).mpr
    ⟨by decide, by decide, List.forall_mem_nil _⟩

end Awb.Run.Experiments
