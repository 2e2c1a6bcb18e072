import Awb.Lib.Splitting
import Awb.Lib.Substitution
import Awb.Workspace.ExpandPath

/-! `expand_env` first collects the names behind `$` and then, for each of them, replaces `$NAME`
where it first stands. A name in braces is collected, but `${NAME}` is not replaced. -/

namespace Awb
open Substitution

/-- The names that `/\${*(\w+)/g` captures: a match begins at a `$` and ends before the next. -/
def envVars : Text → List Text
  | [] => []
  | c :: cs =>
    let var := (cs.dropWhile (· = '{')).takeWhile isWordChar
    if c = '$' ∧ var ≠ [] then var :: envVars cs else envVars cs

/-- `s/\$$var/$ENV{$var}/`. -/
def substituteVar (env : Text → Option Text) (file var : Text) : Except Text Text :=
  match env var with
  | none => .error ("Unable to translate environment variable ".toList ++ var ++ ".\n".toList)
  | some value => .ok ((substituteFirst ('$' :: var) value file).getD file)

/-- `expand_env`. -/
def expandEnv (env : Text → Option Text) (file : Text) : Except Text Text :=
  (envVars file).foldlM (substituteVar env) file

/-! ### References -/

/-- What stands behind each `$`, up to the next one. -/
def behindDollars (text : Text) : List Text := (text.splitOn '$').tail

/-- The variable of the reference `$NAME` or `${NAME}`, and what stands behind it. -/
def envRef (part : Text) : Option (Text × Text) :=
  if part.takeWhile isWordChar ≠ [] then
    some (part.takeWhile isWordChar, part.dropWhile isWordChar)
  else
    match part with
    | '{' :: cs =>
      match cs.dropWhile isWordChar with
      | '}' :: after =>
        if cs.takeWhile isWordChar ≠ [] then some (cs.takeWhile isWordChar, after) else none
      | _ => none
    | _ => none

def replaceRef (env : Text → Option Text) (part : Text) : Text :=
  match envRef part with
  | some (name, after) => (env name).getD [] ++ after
  | none => '$' :: part

/-- The text with every reference replaced, and with all its other characters. -/
def replaceRefs (env : Text → Option Text) (text : Text) : Text :=
  (text.splitOn '$').headD [] ++ (behindDollars text).flatMap (replaceRef env)

/-- Every variable that the text refers to is defined, by a value without `$`. -/
def Defines (env : Text → Option Text) (text : Text) : Prop :=
  ∀ part ∈ behindDollars text, ∀ name after, envRef part = some (name, after) →
    ∃ value, env name = some value ∧ '$' ∉ value

/-- The name that is collected at a `$`. -/
def varName (part : Text) : Text := (part.dropWhile (· = '{')).takeWhile isWordChar

/-- No name is in braces, and behind a reference with a `$` directly in front of it there are no
further names. -/
structure PlainRefs (text : Text) : Prop where
  unbraced : ∀ part ∈ behindDollars text, part.head? = some '{' → varName part = []
  doubled : ∀ before part after, behindDollars text = before ++ [] :: part :: after →
    varName part ≠ [] → ∀ later ∈ after, varName later = []

/-- There are names behind braces, but not in `${NAME}`, and all of them are referred to. -/
structure OpenBraces (text : Text) : Prop where
  opened : ∃ part ∈ behindDollars text, part.head? = some '{' ∧ varName part ≠ []
  unclosed : ∀ part ∈ behindDollars text, part.head? = some '{' → envRef part = none
  referenced : ∀ part ∈ behindDollars text, varName part ≠ [] →
    ∃ other ∈ behindDollars text, ∃ after, envRef other = some (varName part, after)

/-! ### What stands behind the `$` of a text -/

variable {env : Text → Option Text} {text front back part name value : Text} {parts : List Text}
  {p : Char → Bool}

theorem behindDollars_spec (text : Text) :
    text = (text.splitOn '$').headD [] ++ (behindDollars text).flatMap ('$' :: ·) ∧
      '$' ∉ (text.splitOn '$').headD [] ∧ ∀ part ∈ behindDollars text, '$' ∉ part := by
  obtain ⟨head, parts, hsplit⟩ := List.exists_cons_of_ne_nil (List.splitOn_ne_nil '$' text)
  have hfree : ∀ part ∈ head :: parts, '$' ∉ part := fun part hpart =>
    Splitting.notMem_of_mem_splitOn (hsplit ▸ hpart)
  have htext : text = head ++ parts.flatMap ('$' :: ·) := by
    conv_lhs => rw [← @List.intercalate_splitOn _ text _ _ '$', hsplit, intercalate_cons_eq]
    rfl
  rw [behindDollars, hsplit]
  exact ⟨htext, List.forall_mem_cons.mp hfree⟩

theorem takeWhile_dollars (hp : p '$' = false) (part : Text) (parts : List Text) :
    (part ++ parts.flatMap ('$' :: ·)).takeWhile p = part.takeWhile p := by
  induction part with
  | nil =>
    cases parts with
    | nil => rfl
    | cons next parts =>
      rw [List.nil_append, List.flatMap_cons, List.cons_append,
        List.takeWhile_cons_of_neg (by simp [hp]), List.takeWhile_nil]
  | cons c part ih =>
    rw [List.cons_append, List.takeWhile_cons, List.takeWhile_cons, ih]

theorem dropWhile_dollars (hp : p '$' = false) (part : Text) (parts : List Text) :
    (part ++ parts.flatMap ('$' :: ·)).dropWhile p =
      part.dropWhile p ++ parts.flatMap ('$' :: ·) := by
  induction part with
  | nil =>
    cases parts with
    | nil => rfl
    | cons next parts =>
      rw [List.nil_append, List.flatMap_cons, List.cons_append,
        List.dropWhile_cons_of_neg (by simp [hp])]
      rfl
  | cons c part ih =>
    rw [List.cons_append, List.dropWhile_cons, List.dropWhile_cons, ih]
    split <;> rfl

theorem envVars_append (h : '$' ∉ front) (back : Text) :
    envVars (front ++ back) = envVars back := by
  induction front with
  | nil => rfl
  | cons c front ih =>
    obtain ⟨hc, hfront⟩ := List.ne_and_not_mem_of_not_mem_cons h
    rw [List.cons_append, envVars]
    simp only [hc.symm, false_and, if_false]
    exact ih hfront

/-- The names are collected part by part. -/
theorem envVars_flatMap (h : ∀ part ∈ parts, '$' ∉ part) :
    envVars (parts.flatMap ('$' :: ·)) = (parts.map varName).filter (· ≠ []) := by
  induction parts with
  | nil => rfl
  | cons part parts ih =>
    obtain ⟨hpart, hparts⟩ := List.forall_mem_cons.mp h
    have hname : ((part ++ parts.flatMap ('$' :: ·)).dropWhile (· = '{')).takeWhile isWordChar =
        varName part := by
      rw [dropWhile_dollars rfl, takeWhile_dollars rfl, varName]
    rw [List.flatMap_cons, List.cons_append, envVars, hname, envVars_append hpart, ih hparts,
      List.map_cons, List.filter_cons]
    simp only [true_and, decide_eq_true_eq]

theorem envVars_eq (text : Text) :
    envVars text = ((behindDollars text).map varName).filter (· ≠ []) := by
  obtain ⟨htext, hhead, hparts⟩ := behindDollars_spec text
  conv_lhs => rw [htext]
  rw [envVars_append hhead, envVars_flatMap hparts]

theorem isWordChar_of_mem_varName {c : Char} (h : c ∈ varName part) : isWordChar c = true :=
  List.mem_takeWhile_imp h

/-- Without a name there is no reference. -/
theorem envRef_eq_none (h : varName part = []) : envRef part = none := by
  cases part with
  | nil => rfl
  | cons c cs =>
    by_cases hc : c = '{'
    · subst hc
      have hcs : cs.takeWhile isWordChar = [] := by
        cases cs with
        | nil => rfl
        | cons d ds =>
          by_cases hd : isWordChar d = true
          · have hbrace : d ≠ '{' := by
              rintro rfl
              cases hd
            rw [varName, List.dropWhile_cons_of_pos rfl, List.dropWhile_cons_of_neg (by simpa)] at h
            exact h
          · exact List.takeWhile_cons_of_neg hd
      have hbrace : ('{' :: cs).takeWhile isWordChar = [] := rfl
      simp only [envRef, hbrace, hcs, ne_eq, not_true_eq_false, if_false]
      split <;> rfl
    · rw [varName, List.dropWhile_cons_of_neg (by simpa)] at h
      simp only [envRef, h, ne_eq, not_true_eq_false, if_false]
      split
      · rename_i heq
        exact absurd (List.cons.inj heq).1 hc
      · rfl

theorem envRef_of_unbraced (hbrace : part.head? ≠ some '{') (h : varName part ≠ []) :
    part = varName part ++ part.dropWhile isWordChar ∧
      envRef part = some (varName part, part.dropWhile isWordChar) := by
  have hname : varName part = part.takeWhile isWordChar := by
    cases part with
    | nil => rfl
    | cons c cs => rw [varName, List.dropWhile_cons_of_neg fun hc => hbrace (by simpa using hc)]
  rw [hname] at h ⊢
  exact ⟨List.takeWhile_append_dropWhile.symm, if_pos h⟩

/-! ### Substituting -/

/-- No name stands directly behind a `$`. -/
def NoName (front : Text) : Prop :=
  ∀ before c after, front = before ++ '$' :: c :: after → isWordChar c = false

/-- The first place for a name is behind a text where there is none. -/
theorem cutAt_noName (hfront : NoName front) (hne : name ≠ [])
    (hname : ∀ c ∈ name, isWordChar c = true) (back : Text) :
    cutAt ('$' :: name) (front ++ '$' :: name ++ back) = some (front, back) := by
  refine cutAt_of_first fun before after heq => ?_
  by_contra hlt
  obtain ⟨c, name, rfl⟩ := List.exists_cons_of_ne_nil hne
  have hword := hname c List.mem_cons_self
  rw [List.append_assoc, List.append_assoc] at heq
  obtain ⟨rest, rfl, hrest⟩ : ∃ rest, front = before ++ rest ∧
      rest ++ ('$' :: c :: name ++ back) = '$' :: c :: name ++ after := by
    obtain ⟨rest, hb, hr⟩ | ⟨rest, hb, hr⟩ := List.append_eq_append_iff.mp heq
    · have := congrArg List.length hb
      rw [List.length_append] at this
      omega
    · exact ⟨rest, hb, hr.symm⟩
  cases rest with
  | nil => simp at hlt
  | cons d rest =>
    obtain ⟨rfl, htail⟩ := List.cons.inj hrest
    cases rest with
    | nil =>
      obtain ⟨rfl, -⟩ := List.cons.inj htail
      cases hword
    | cons d rest =>
      obtain ⟨rfl, -⟩ := List.cons.inj htail
      rw [hfront before d rest rfl] at hword
      cases hword

theorem substituteVar_noName (hfront : NoName front) (hne : name ≠ [])
    (hname : ∀ c ∈ name, isWordChar c = true) (hvalue : env name = some value) (back : Text) :
    substituteVar env (front ++ '$' :: name ++ back) name = .ok (front ++ value ++ back) := by
  simp only [substituteVar, hvalue, substituteFirst, cutAt_noName hfront hne hname, Option.map_some,
    Option.getD_some]

theorem NoName.append (hfront : NoName front) (hlast : front.getLast? ≠ some '$')
    (hback : '$' ∉ back) : NoName (front ++ back) := by
  intro before c after heq
  obtain ⟨rest, hb, hr⟩ | ⟨rest, hb, hr⟩ := List.append_eq_append_iff.mp heq
  · rw [hr] at hback
    exact absurd (List.mem_append_right rest List.mem_cons_self) hback
  · cases rest with
    | nil =>
      rw [List.nil_append] at hr
      rw [← hr] at hback
      exact absurd List.mem_cons_self hback
    | cons d rest =>
      obtain ⟨rfl, htail⟩ := List.cons.inj hr
      cases rest with
      | nil =>
        rw [hb, List.getLast?_concat] at hlast
        exact absurd rfl hlast
      | cons d rest =>
        obtain ⟨rfl, -⟩ := List.cons.inj htail
        exact hfront before c rest hb

theorem head_of_varName_nil {c : Char} {after : Text} (hname : varName (c :: after) = []) :
    isWordChar c = false := by
  by_contra hc
  rw [Bool.not_eq_false] at hc
  have hbrace : c ≠ '{' := by
    rintro rfl
    cases hc
  rw [varName, List.dropWhile_cons_of_neg (by simpa), List.takeWhile_cons_of_pos hc] at hname
  cases hname

theorem NoName.dollar (hfront : NoName front) (hpart : '$' ∉ part)
    (hname : varName part = []) : NoName (front ++ '$' :: part) := by
  intro before c after heq
  obtain ⟨rest, hb, hr⟩ | ⟨rest, hb, hr⟩ := List.append_eq_append_iff.mp heq
  · cases rest with
    | nil =>
      obtain ⟨-, rfl⟩ := List.cons.inj hr
      exact head_of_varName_nil hname
    | cons d rest =>
      obtain ⟨-, rfl⟩ := List.cons.inj hr
      exact absurd (List.mem_append_right rest List.mem_cons_self) hpart
  · cases rest with
    | nil =>
      obtain ⟨-, rfl⟩ := List.cons.inj hr
      exact head_of_varName_nil hname
    | cons d rest =>
      obtain ⟨rfl, htail⟩ := List.cons.inj hr
      cases rest with
      | nil =>
        obtain ⟨rfl, -⟩ := List.cons.inj htail
        rfl
      | cons d rest =>
        obtain ⟨rfl, -⟩ := List.cons.inj htail
        exact hfront before c rest hb

theorem getLast?_append_ne (hfront : front.getLast? ≠ some '$') (hback : '$' ∉ back) :
    (front ++ back).getLast? ≠ some '$' := by
  intro h
  by_cases hnil : back = []
  · rw [hnil, List.append_nil] at h
    exact hfront h
  · rw [List.getLast?_append_of_ne_nil _ hnil] at h
    exact hback (List.mem_of_getLast? h)

/-- The names of parts are replaced one after the other, as long as none is in braces or directly
behind a lone `$`. -/
theorem foldlM_parts (hdefined : ∀ part ∈ parts, ∀ name after, envRef part = some (name, after) →
      ∃ value, env name = some value ∧ '$' ∉ value)
    (hfree : ∀ part ∈ parts, '$' ∉ part)
    (hbrace : ∀ part ∈ parts, part.head? = some '{' → varName part = [])
    (hchain : parts.IsChain fun part next => part = [] → varName next = [])
    (hfront : NoName front)
    (hlast : front.getLast? = some '$' → ∀ part, parts.head? = some part → varName part = [])
    (back : Text) :
    ((parts.map varName).filter (· ≠ [])).foldlM (substituteVar env)
        (front ++ parts.flatMap ('$' :: ·) ++ back) =
      .ok (front ++ parts.flatMap (replaceRef env) ++ back) ∧
    NoName (front ++ parts.flatMap (replaceRef env)) := by
  induction parts generalizing front with
  | nil => exact ⟨rfl, by simpa using hfront⟩
  | cons part parts ih =>
    obtain ⟨hpartDefined, hdefined⟩ := List.forall_mem_cons.mp hdefined
    obtain ⟨hpartFree, hfree⟩ := List.forall_mem_cons.mp hfree
    obtain ⟨hpartBrace, hbrace⟩ := List.forall_mem_cons.mp hbrace
    have hnext : ∀ next, parts.head? = some next → part = [] → varName next = [] := by
      intro next hhead
      obtain ⟨rest, rfl⟩ : ∃ rest, parts = next :: rest := by
        cases parts with
        | nil => cases hhead
        | cons q rest => exact ⟨rest, by rw [Option.some.inj hhead]⟩
      exact (List.isChain_cons_cons.mp hchain).1
    have hchain := hchain.tail
    by_cases hname : varName part = []
    · -- Nothing is replaced, and the lone `$` joins what is in front of the other parts.
      have hreplace : replaceRef env part = '$' :: part := by
        rw [replaceRef, envRef_eq_none hname]
      have hlast' : (front ++ '$' :: part).getLast? = some '$' →
          ∀ next, parts.head? = some next → varName next = [] := by
        intro h next hhead
        refine hnext next hhead ?_
        by_contra hne
        rw [List.getLast?_append_of_ne_nil _ (List.cons_ne_nil _ _),
          List.getLast?_cons_of_ne_nil hne] at h
        exact hpartFree (List.mem_of_getLast? h)
      have hih := ih hdefined hfree hbrace hchain (hfront.dollar hpartFree hname) hlast'
      rw [List.map_cons, List.filter_cons_of_neg (by simpa), List.flatMap_cons, List.flatMap_cons,
        hreplace]
      simpa only [List.append_assoc] using hih
    · -- The value joins it, which ends with no `$` and has no name behind one.
      have hhead : part.head? ≠ some '{' := fun h => hname (hpartBrace h)
      obtain ⟨hpart, href⟩ := envRef_of_unbraced hhead hname
      obtain ⟨value, hvalue, hdollar⟩ := hpartDefined _ _ href
      generalize htail : part.dropWhile isWordChar = tail at hpart href
      have hreplace : replaceRef env part = value ++ tail := by
        rw [replaceRef, href]
        dsimp only
        rw [hvalue, Option.getD_some]
      have hfrontLast : front.getLast? ≠ some '$' := fun h => hname (hlast h part rfl)
      have hnew : '$' ∉ value ++ tail := by
        intro h
        rcases List.mem_append.mp h with h | h
        · exact hdollar h
        · exact hpartFree (hpart ▸ List.mem_append_right _ h)
      have hlast' := getLast?_append_ne hfrontLast hnew
      have hsubst := substituteVar_noName hfront hname (fun _ => isWordChar_of_mem_varName) hvalue
        (tail ++ parts.flatMap ('$' :: ·) ++ back)
      have hih := ih hdefined hfree hbrace hchain (hfront.append hfrontLast hnew)
        fun h => absurd h hlast'
      have htext : front ++ ('$' :: part ++ parts.flatMap ('$' :: ·)) ++ back =
          front ++ '$' :: varName part ++ (tail ++ parts.flatMap ('$' :: ·) ++ back) := by
        conv_lhs => rw [hpart]
        simp only [List.append_assoc, List.cons_append]
      rw [List.map_cons, List.filter_cons_of_pos (by simpa), List.foldlM_cons, List.flatMap_cons,
        List.flatMap_cons, hreplace, htext, hsubst]
      change (List.foldlM (substituteVar env)
        (front ++ value ++ (tail ++ parts.flatMap ('$' :: ·) ++ back)) _ = _) ∧ _
      simpa only [List.append_assoc] using hih

/-! ### A name behind a replaced one -/

/-- At the first difference the other text has a `$`. -/
def Diverged (target text : Text) : Prop :=
  ∃ same c after rest, text = same ++ c :: after ∧ target = same ++ '$' :: rest ∧ c ≠ '$'

theorem Diverged.not_prefix {target : Text} (h : Diverged target front) (back : Text) :
    front ≠ target ++ back := by
  obtain ⟨same, c, after, rest, rfl, rfl, hc⟩ := h
  rw [List.append_assoc]
  intro heq
  exact hc (List.cons.inj (List.append_cancel_left heq)).1

/-- Values that begin with another character do not make up for the difference. -/
theorem Diverged.substituteVar {target text' : Text} (h : Diverged target text)
    (hvalue : ∀ name value, env name = some value → ∃ c rest, value = c :: rest ∧ c ≠ '$')
    (hne : name ≠ [])
    (hname : ∀ c ∈ name, isWordChar c = true) (hstep : substituteVar env text name = .ok text') :
    Diverged target text' := by
  unfold Awb.substituteVar at hstep
  split at hstep
  · cases hstep
  · rename_i value hval
    obtain rfl := Except.ok.inj hstep
    cases hcut : cutAt ('$' :: name) text with
    | none =>
      rw [substituteFirst, hcut]
      exact h
    | some cut =>
      obtain ⟨before, back⟩ := cut
      have htext := eq_of_cutAt hcut
      obtain ⟨v, value, rfl, hv⟩ := hvalue name _ hval
      obtain ⟨n, name, rfl⟩ := List.exists_cons_of_ne_nil hne
      simp only [substituteFirst, hcut, Option.map_some, Option.getD_some]
      obtain ⟨same, c, after, rest, rfl, rfl, hc⟩ := h
      rw [List.append_assoc] at htext
      -- The name is replaced behind the difference or in front of it.
      obtain ⟨more, rfl, hr⟩ | ⟨more, rfl, hr⟩ := List.append_eq_append_iff.mp htext
      · cases more with
        | nil => exact absurd (List.cons.inj hr).1 hc
        | cons d more =>
          obtain ⟨rfl, -⟩ := List.cons.inj hr
          exact ⟨same, c, more ++ (v :: value) ++ back, rest, by simp, rfl, hc⟩
      · cases more with
        | nil => exact absurd (List.cons.inj hr).1.symm hc
        | cons d more =>
          obtain ⟨rfl, -⟩ := List.cons.inj hr
          exact ⟨before, v, value ++ back, more ++ '$' :: rest, by simp, by simp, hv⟩

theorem Diverged.foldlM {target text' : Text} {names : List Text} (h : Diverged target text)
    (hvalue : ∀ name value, env name = some value → ∃ c rest, value = c :: rest ∧ c ≠ '$')
    (hnames : ∀ name ∈ names, name ≠ [] ∧ ∀ c ∈ name, isWordChar c = true)
    (hstep : names.foldlM (Awb.substituteVar env) text = .ok text') : Diverged target text' := by
  induction names generalizing text with
  | nil => exact Except.ok.inj hstep ▸ h
  | cons name names ih =>
    obtain ⟨⟨hne, hname⟩, hnames⟩ := List.forall_mem_cons.mp hnames
    rw [List.foldlM_cons] at hstep
    cases hone : Awb.substituteVar env text name with
    | error message =>
      rw [hone] at hstep
      cases hstep
    | ok next =>
      rw [hone] at hstep
      exact ih (h.substituteVar hvalue hne hname hone) hnames hstep

/-! ### Braces -/

theorem foldlM_undefined {text' : Text} {names : List Text} (hname : name ∈ names)
    (hnone : env name = none) : names.foldlM (substituteVar env) text ≠ .ok text' := by
  induction names generalizing text with
  | nil => cases hname
  | cons first names ih =>
    rw [List.foldlM_cons]
    cases hfirst : substituteVar env text first with
    | error message => exact fun h => by cases h
    | ok next =>
      rcases List.mem_cons.mp hname with rfl | hname
      · simp only [substituteVar, hnone] at hfirst
        cases hfirst
      · exact ih hname

theorem envRef_eq_some {after : Text} (h : envRef part = some (name, after)) :
    name ≠ [] ∧ (∀ c ∈ name, isWordChar c = true) ∧
      (part = name ++ after ∨ part = '{' :: name ++ '}' :: after) := by
  unfold envRef at h
  split at h
  · rename_i hne
    obtain ⟨rfl, rfl⟩ := Prod.mk.inj (Option.some.inj h)
    exact ⟨hne, fun c => List.mem_takeWhile_imp, .inl List.takeWhile_append_dropWhile.symm⟩
  · split at h
    · rename_i cs _
      split at h
      · rename_i behind hcs
        split_ifs at h with hne
        obtain ⟨rfl, rfl⟩ := Prod.mk.inj (Option.some.inj h)
        refine ⟨hne, fun c => List.mem_takeWhile_imp, .inr ?_⟩
        rw [List.cons_append, ← hcs, List.takeWhile_append_dropWhile]
      · cases h
    · cases h

theorem count_brace (hname : ∀ c ∈ name, isWordChar c = true) : name.count '{' = 0 :=
  List.count_eq_zero.mpr fun h => by cases hname _ h

/-- A dash for every variable. -/
def dashes : Text → Option Text := fun _ => some ['-']

theorem count_substituteVar {text' : Text} (hname : ∀ c ∈ name, isWordChar c = true)
    (h : substituteVar dashes text name = .ok text') : text'.count '{' = text.count '{' := by
  obtain rfl := Except.ok.inj h
  cases hcut : cutAt ('$' :: name) text with
  | none => rw [substituteFirst, hcut, Option.map_none, Option.getD_none]
  | some cut =>
    have htext := congrArg (List.count '{') (eq_of_cutAt hcut)
    have hzero := count_brace hname
    rw [htext, substituteFirst, hcut, Option.map_some, Option.getD_some]
    simp [List.count_append, hzero]

theorem exists_foldlM_dashes (text : Text) {names : List Text}
    (hnames : ∀ name ∈ names, ∀ c ∈ name, isWordChar c = true) :
    ∃ text', names.foldlM (substituteVar dashes) text = .ok text' ∧
      text'.count '{' = text.count '{' := by
  induction names generalizing text with
  | nil => exact ⟨text, rfl, rfl⟩
  | cons name names ih =>
    obtain ⟨hname, hnames⟩ := List.forall_mem_cons.mp hnames
    obtain ⟨next, hnext⟩ : ∃ next, substituteVar dashes text name = .ok next := ⟨_, rfl⟩
    obtain ⟨text', htext', hcount⟩ := @ih next hnames
    refine ⟨text', ?_, hcount.trans (count_substituteVar hname hnext)⟩
    rw [List.foldlM_cons, hnext]
    exact htext'

/-- A reference in braces takes a brace away. -/
theorem count_replaceRef (part : Text) :
    (replaceRef dashes part).count '{' ≤ part.count '{' ∧
      (part.head? = some '{' → envRef part ≠ none →
        (replaceRef dashes part).count '{' < part.count '{') := by
  cases href : envRef part with
  | none =>
    rw [replaceRef, href]
    exact ⟨by simp, fun _ h => absurd rfl h⟩
  | some ref =>
    obtain ⟨name, after⟩ := ref
    have hcount : (replaceRef dashes part).count '{' = after.count '{' := by
      rw [replaceRef, href]
      simp [dashes]
    obtain ⟨hne, hname, rfl | rfl⟩ := envRef_eq_some href
    · rw [hcount, List.count_append, count_brace hname, Nat.zero_add]
      refine ⟨le_rfl, fun hhead _ => ?_⟩
      obtain ⟨c, name, rfl⟩ := List.exists_cons_of_ne_nil hne
      obtain rfl := Option.some.inj hhead
      cases hname _ List.mem_cons_self
    · rw [hcount]
      simp [count_brace hname]

theorem count_flatMap_replaceRef (parts : List Text) :
    (parts.flatMap (replaceRef dashes)).count '{' ≤ (parts.flatMap ('$' :: ·)).count '{' ∧
      ((∃ part ∈ parts, part.head? = some '{' ∧ envRef part ≠ none) →
        (parts.flatMap (replaceRef dashes)).count '{' <
          (parts.flatMap ('$' :: ·)).count '{') := by
  induction parts with
  | nil => exact ⟨le_rfl, fun ⟨_, h, _⟩ => by cases h⟩
  | cons part parts ih =>
    obtain ⟨hle, hlt⟩ := count_replaceRef part
    obtain ⟨ihle, ihlt⟩ := ih
    have hdollar : ('$' :: part).count '{' = part.count '{' := List.count_cons_of_ne (by decide)
    simp only [List.flatMap_cons, List.count_append, hdollar]
    refine ⟨Nat.add_le_add hle ihle, ?_⟩
    rintro ⟨found, hfound, hhead, href⟩
    rcases List.mem_cons.mp hfound with rfl | hfound
    · exact Nat.add_lt_add_of_lt_of_le (hlt hhead href) ihle
    · exact Nat.add_lt_add_of_le_of_lt hle (ihlt ⟨found, hfound, hhead, href⟩)

theorem defines_dashes (text : Text) : Defines dashes text :=
  fun _ _ _ _ _ => ⟨['-'], rfl, by decide⟩

theorem mem_envVars (hpart : part ∈ behindDollars text) (hname : varName part ≠ []) :
    varName part ∈ envVars text := by
  rw [envVars_eq]
  exact List.mem_filter.mpr ⟨List.mem_map_of_mem hpart, by simpa using hname⟩

theorem isWordChar_of_mem_envVars (h : name ∈ envVars text) {c : Char} (hc : c ∈ name) :
    isWordChar c = true := by
  rw [envVars_eq] at h
  obtain ⟨part, -, rfl⟩ := List.mem_map.mp (List.mem_filter.mp h).1
  exact isWordChar_of_mem_varName hc

/-- If every text with defined variables is expanded right, then no name in `${NAME}` and every name
behind braces is referred to. -/
theorem openBraces (h : ∀ env, Defines env text → expandEnv env text = .ok (replaceRefs env text))
    (hopened : ∃ part ∈ behindDollars text, part.head? = some '{' ∧ varName part ≠ []) :
    OpenBraces text := by
  refine ⟨hopened, fun part hpart hhead => ?_, fun part hpart hname => ?_⟩
  · by_contra href
    have hwords : ∀ name ∈ envVars text, ∀ c ∈ name, isWordChar c = true := fun name hname c =>
      isWordChar_of_mem_envVars hname
    obtain ⟨text', htext', hcount⟩ := exists_foldlM_dashes text hwords
    have hright := htext'.symm.trans (h dashes (defines_dashes text))
    obtain ⟨htext, -, -⟩ := behindDollars_spec text
    have hlt := (count_flatMap_replaceRef (behindDollars text)).2 ⟨part, hpart, hhead, href⟩
    have hwhole := congrArg (List.count '{') htext
    rw [Except.ok.inj hright, replaceRefs] at hcount
    rw [List.count_append] at hcount hwhole
    omega
  · by_contra hnot
    have hdefines :
        Defines (fun name => if name = varName part then none else dashes name) text := by
      intro other hother name after href
      have hne : name ≠ varName part := fun heq => hnot ⟨other, hother, after, heq ▸ href⟩
      exact ⟨['-'], if_neg hne, by decide⟩
    exact foldlM_undefined (mem_envVars hpart hname) (if_pos rfl) (h _ hdefines)

/-! ### The condition -/

theorem isChain_or_first {α : Type} (R : α → α → Prop) (l : List α) : l.IsChain R ∨
    ∃ before a b after, l = before ++ a :: b :: after ∧ ¬ R a b ∧ (before ++ [a]).IsChain R := by
  induction l with
  | nil => exact .inl .nil
  | cons a l ih =>
    cases l with
    | nil => exact .inl (.singleton a)
    | cons b l =>
      by_cases hab : R a b
      · rcases ih with hchain | ⟨before, x, y, after, heq, hxy, hchain⟩
        · exact .inl (.cons_cons hab hchain)
        · refine .inr ⟨a :: before, x, y, after, by rw [heq]; rfl, hxy, ?_⟩
          cases before with
          | nil =>
            obtain ⟨rfl, -⟩ := List.cons.inj heq
            exact .cons_cons hab hchain
          | cons c before =>
            obtain ⟨rfl, -⟩ := List.cons.inj heq
            exact .cons_cons hab hchain
      · exact .inr ⟨[], a, b, l, rfl, hab, .singleton a⟩

/-- No name stands directly behind a lone `$`. -/
def Undoubled (parts : List Text) : Prop :=
  parts.IsChain fun part next => part = [] → varName next = []

theorem undoubled_or_first (parts : List Text) : Undoubled parts ∨ ∃ before part after,
    parts = before ++ [] :: part :: after ∧ varName part ≠ [] ∧ Undoubled (before ++ [[]]) := by
  rcases isChain_or_first (fun part next => part = [] → varName next = []) parts with
    hchain | ⟨before, a, b, after, rfl, hab, hchain⟩
  · exact .inl hchain
  · obtain ⟨rfl, hb⟩ := Classical.not_imp.mp hab
    exact .inr ⟨before, b, after, rfl, hb, hchain⟩

theorem noName_of_free (h : '$' ∉ front) : NoName front :=
  @NoName.append [] front (fun before c after heq => by cases before <;> cases heq) (by simp) h

theorem replaceRef_nil : replaceRef env [] = ['$'] := rfl

/-- Up to the first name directly behind a lone `$` all references are replaced. -/
theorem expandEnv_upTo {before after : List Text} (hdefined : Defines env text)
    (hunbraced : ∀ part ∈ behindDollars text, part.head? = some '{' → varName part = [])
    (hparts : behindDollars text = before ++ after) (hchain : Undoubled before) :
    ∃ front, NoName front ∧ front = (text.splitOn '$').headD [] ++ before.flatMap (replaceRef env) ∧
      expandEnv env text = ((after.map varName).filter (· ≠ [])).foldlM (substituteVar env)
        (front ++ after.flatMap ('$' :: ·)) := by
  obtain ⟨htext, hhead, hfree⟩ := behindDollars_spec text
  have hmem : ∀ part ∈ before, part ∈ behindDollars text := fun part hpart =>
    hparts ▸ List.mem_append_left after hpart
  have hlast : ((text.splitOn '$').headD []).getLast? = some '$' →
      ∀ part, before.head? = some part → varName part = [] :=
    fun h => absurd (List.mem_of_getLast? h) hhead
  obtain ⟨hfold, hfront⟩ := foldlM_parts (fun part hpart => hdefined part (hmem part hpart))
    (fun part hpart => hfree part (hmem part hpart))
    (fun part hpart => hunbraced part (hmem part hpart)) hchain (noName_of_free hhead) hlast
    (after.flatMap ('$' :: ·))
  refine ⟨_, hfront, rfl, ?_⟩
  have hall : text = (text.splitOn '$').headD [] ++ before.flatMap ('$' :: ·) ++
      after.flatMap ('$' :: ·) := by
    conv_lhs => rw [htext, hparts, List.flatMap_append, ← List.append_assoc]
  rw [expandEnv, envVars_eq, hparts, List.map_append, List.filter_append, List.foldlM_append]
  conv_lhs => rw [hall, hfold]
  rfl

theorem replaceRefs_eq {before after : List Text} (hparts : behindDollars text = before ++ after) :
    replaceRefs env text = (text.splitOn '$').headD [] ++ before.flatMap (replaceRef env) ++
      after.flatMap (replaceRef env) := by
  rw [replaceRefs, hparts, List.flatMap_append, List.append_assoc]

/-- The first name directly behind a lone `$` is replaced as well. -/
theorem foldlM_doubled {after : List Text} {tail : Text} (hfront : NoName front)
    (hpart : part = varName part ++ tail) (hname : varName part ≠ [])
    (hvalue : env (varName part) = some value) :
    (((part :: after).map varName).filter (· ≠ [])).foldlM (substituteVar env)
        (front ++ (part :: after).flatMap ('$' :: ·)) =
      ((after.map varName).filter (· ≠ [])).foldlM (substituteVar env)
        (front ++ value ++ (tail ++ after.flatMap ('$' :: ·))) := by
  have htext : front ++ (part :: after).flatMap ('$' :: ·) =
      front ++ '$' :: varName part ++ (tail ++ after.flatMap ('$' :: ·)) := by
    rw [List.flatMap_cons]
    conv_lhs => rw [hpart]
    simp only [List.append_assoc, List.cons_append]
  rw [List.map_cons, List.filter_cons_of_pos (by simpa), List.foldlM_cons, htext,
    substituteVar_noName hfront hname (fun _ => isWordChar_of_mem_varName) hvalue]
  rfl

theorem expandEnv_of_plain (hplain : PlainRefs text) (hdefined : Defines env text) :
    expandEnv env text = .ok (replaceRefs env text) := by
  rcases undoubled_or_first (behindDollars text) with
    hchain | ⟨before, part, after, hparts, hname, hchain⟩
  · obtain ⟨front, -, rfl, hexpand⟩ :=
      expandEnv_upTo hdefined hplain.unbraced (List.append_nil _).symm hchain
    rw [hexpand]
    exact congrArg Except.ok (List.append_nil _)
  · have hlater := hplain.doubled before part after hparts hname
    have hpartMem : part ∈ behindDollars text := by simp [hparts]
    have hsplit : behindDollars text = (before ++ [[]]) ++ part :: after := by
      rw [hparts, List.append_assoc]
      rfl
    obtain ⟨front, hfront, hfrontEq, hexpand⟩ :=
      expandEnv_upTo hdefined hplain.unbraced hsplit hchain
    obtain ⟨hpart, href⟩ :=
      envRef_of_unbraced (fun h => hname (hplain.unbraced part hpartMem h)) hname
    obtain ⟨value, hvalue, -⟩ := hdefined part hpartMem _ _ href
    have hnone : (after.map varName).filter (· ≠ []) = [] := by
      rw [List.filter_eq_nil_iff]
      rintro _ hmem
      obtain ⟨later, hafter, rfl⟩ := List.mem_map.mp hmem
      simpa using hlater later hafter
    have hkept : after.flatMap (replaceRef env) = after.flatMap ('$' :: ·) := by
      refine List.flatMap_congr fun later hmem => ?_
      rw [replaceRef, envRef_eq_none (hlater later hmem)]
    have hreplace : replaceRef env part = value ++ part.dropWhile isWordChar := by
      rw [replaceRef, href]
      dsimp only
      rw [hvalue, Option.getD_some]
    rw [hexpand, foldlM_doubled hfront hpart hname hvalue, hnone, replaceRefs_eq hsplit, ← hfrontEq,
      List.flatMap_cons, hkept, hreplace]
    exact congrArg Except.ok (by simp only [List.append_assoc])

/-- A first name directly behind a lone `$` and a later name. -/
theorem first_doubled {before after : List Text} {later : Text}
    (hparts : parts = before ++ [] :: part :: after) (hname : varName part ≠ [])
    (hlater : later ∈ after) (hlaterName : varName later ≠ []) :
    ∃ before part after later, parts = (before ++ [[]]) ++ part :: after ∧ varName part ≠ [] ∧
      later ∈ after ∧ varName later ≠ [] ∧ Undoubled (before ++ [[]]) := by
  rcases undoubled_or_first (before ++ [[]]) with
    hchain | ⟨first, firstPart, rest, hbefore, hfirst, hchain⟩
  · exact ⟨before, part, after, later, by rw [hparts, List.append_assoc]; rfl, hname, hlater,
      hlaterName, hchain⟩
  · refine ⟨first, firstPart, rest ++ part :: after, later, ?_, hfirst,
      List.mem_append_right rest (List.mem_cons_of_mem part hlater), hlaterName, hchain⟩
    have hsplit : parts = (before ++ [[]]) ++ part :: after := by
      rw [hparts, List.append_assoc]
      rfl
    rw [hsplit, hbefore]
    simp

/-- The value of the first name is the next name, and it is replaced in its place. -/
theorem expandEnv_doubled {before after : List Text} {later : Text}
    (hunbraced : ∀ part ∈ behindDollars text, part.head? = some '{' → varName part = [])
    (hparts : behindDollars text = (before ++ [[]]) ++ part :: after) (hname : varName part ≠ [])
    (hlater : later ∈ after) (hlaterName : varName later ≠ [])
    (hchain : Undoubled (before ++ [[]])) :
    ∃ env, Defines env text ∧ expandEnv env text ≠ .ok (replaceRefs env text) := by
  obtain ⟨next, names, hnames⟩ : ∃ next names,
      (after.map varName).filter (· ≠ []) = next :: names := by
    refine List.exists_cons_of_ne_nil (List.ne_nil_of_mem (a := varName later) ?_)
    exact List.mem_filter.mpr ⟨List.mem_map_of_mem hlater, by simpa using hlaterName⟩
  have hall : ∀ name ∈ next :: names, name ≠ [] ∧ ∀ c ∈ name, isWordChar c = true := by
    intro name hmem
    rw [← hnames] at hmem
    obtain ⟨hmap, hne⟩ := List.mem_filter.mp hmem
    obtain ⟨other, -, rfl⟩ := List.mem_map.mp hmap
    exact ⟨by simpa using hne, fun _ => isWordChar_of_mem_varName⟩
  obtain ⟨⟨hnextNe, hnextWord⟩, hnamesWord⟩ := List.forall_mem_cons.mp hall
  -- The value makes a reference to the next name with the lone `$`.
  let env : Text → Option Text := fun name =>
    if name = varName part then some next else dashes name
  have hvalues : ∀ name value, env name = some value →
      ∃ c rest, value = c :: rest ∧ c ≠ '$' ∧ '$' ∉ value := by
    intro name value hvalue
    by_cases heq : name = varName part
    · obtain rfl : next = value := Option.some.inj ((if_pos heq).symm.trans hvalue)
      obtain ⟨c, rest, rfl⟩ := List.exists_cons_of_ne_nil hnextNe
      have hdollar : '$' ∉ c :: rest := fun h => by cases hnextWord _ h
      exact ⟨c, rest, rfl, fun h => hdollar (h ▸ List.mem_cons_self), hdollar⟩
    · obtain rfl : ['-'] = value := Option.some.inj ((if_neg heq).symm.trans hvalue)
      exact ⟨'-', [], rfl, by decide, by decide⟩
  have hsome : ∀ name, ∃ value, env name = some value := by
    intro name
    by_cases heq : name = varName part
    · exact ⟨next, if_pos heq⟩
    · exact ⟨['-'], if_neg heq⟩
  have hdefined : Defines env text := by
    intro other _ name _ _
    obtain ⟨value, hvalue⟩ := hsome name
    obtain ⟨-, -, -, -, hdollar⟩ := hvalues name value hvalue
    exact ⟨value, hvalue, hdollar⟩
  refine ⟨env, hdefined, fun hright => ?_⟩
  obtain ⟨front, hfront, hfrontEq, hexpand⟩ := expandEnv_upTo hdefined hunbraced hparts hchain
  have hpartMem : part ∈ behindDollars text := by simp [hparts]
  obtain ⟨hpart, -⟩ := envRef_of_unbraced (fun h => hname (hunbraced part hpartMem h)) hname
  obtain ⟨first, hfirst⟩ : ∃ first, front = first ++ ['$'] := by
    rw [hfrontEq, List.flatMap_append, ← List.append_assoc]
    exact ⟨_, rfl⟩
  have hfirstNoName : NoName first := by
    intro b c a heq
    exact hfront b c (a ++ ['$']) (by rw [hfirst, heq]; simp)
  obtain ⟨value, hvalue⟩ := hsome next
  obtain ⟨c, rest, rfl, hc, -⟩ := hvalues next value hvalue
  have htext : front ++ next ++ (part.dropWhile isWordChar ++ after.flatMap ('$' :: ·)) =
      first ++ '$' :: next ++ (part.dropWhile isWordChar ++ after.flatMap ('$' :: ·)) := by
    simp [hfirst]
  rw [hexpand, foldlM_doubled hfront hpart hname (if_pos rfl), hnames, List.foldlM_cons, htext,
    substituteVar_noName hfirstNoName hnextNe hnextWord hvalue] at hright
  have hdiverged : Diverged front (first ++ c :: rest ++
      (part.dropWhile isWordChar ++ after.flatMap ('$' :: ·))) :=
    ⟨first, c, rest ++ (part.dropWhile isWordChar ++ after.flatMap ('$' :: ·)), [], by simp,
      hfirst, hc⟩
  have hlast := hdiverged.foldlM
    (fun name value h => (hvalues name value h).imp fun _ => Exists.imp fun _ h => ⟨h.1, h.2.1⟩)
    hnamesWord hright
  refine hlast.not_prefix ((part :: after).flatMap (replaceRef env)) ?_
  rw [replaceRefs_eq hparts, ← hfrontEq]

/-- Names in `${NAME}` are not replaced, and the value of a reference directly behind a `$` may make
a name there that is replaced. Every other text is expanded right. -/
theorem expandEnv_iff (text : Text) :
    (PlainRefs text →
      ∀ env, Defines env text → expandEnv env text = .ok (replaceRefs env text)) ∧
    ((∀ env, Defines env text → expandEnv env text = .ok (replaceRefs env text)) →
      PlainRefs text ∨ OpenBraces text) := by
  refine ⟨fun hplain env => expandEnv_of_plain hplain, fun h => ?_⟩
  by_cases hunbraced : ∀ part ∈ behindDollars text, part.head? = some '{' → varName part = []
  · refine .inl ⟨hunbraced, fun before part after hparts hname later hlater => ?_⟩
    by_contra hlaterName
    obtain ⟨before, part, after, later, hparts, hname, hlater, hlaterName, hchain⟩ :=
      first_doubled hparts hname hlater hlaterName
    obtain ⟨env, hdefined, hwrong⟩ :=
      expandEnv_doubled hunbraced hparts hname hlater hlaterName hchain
    exact hwrong (h env hdefined)
  · push Not at hunbraced
    exact .inr (openBraces h hunbraced)

/-- `${X}` stays as it is. -/
theorem not_expandEnv : ∃ env, Defines env "${X}".toList ∧
    expandEnv env "${X}".toList ≠ .ok (replaceRefs env "${X}".toList) :=
  ⟨dashes, defines_dashes _, by decide⟩

end Awb
