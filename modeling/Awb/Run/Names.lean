import Awb.Builder.Paths

/-! The names of benchmarks: how `awb-run` and `awb-batch` make them from paths, each with
substitutions of its own. -/

namespace Awb.Run

/-- Whether a pattern is somewhere in a text. -/
def isInfix (pattern : Text) : Text → Bool
  | [] => pattern.isPrefixOf []
  | c :: cs => pattern.isPrefixOf (c :: cs) || isInfix pattern cs

def basename (path : Text) : Text := path.rtakeWhile (· ≠ '/')

/-- `[a-z][a-z]*\s*` up to the end. -/
def isExtension (cs : Text) : Bool :=
  let letters := cs.rdropWhile Char.isWhitespace
  letters ≠ [] && letters.all Char.isLower

/-- `s/\.[a-z][a-z]*\s*$//s`. -/
def dropExtension : Text → Text
  | [] => []
  | c :: cs => if c = '.' && isExtension cs then [] else c :: dropExtension cs

/-- `s/.cfg//`, where the dot is any character. -/
def dropAnyCfg : Text → Text
  | [] => []
  | c :: cs => if "cfg".toList.isPrefixOf cs then cs.drop 3 else c :: dropAnyCfg cs

/-- `s/\.cfg//`. -/
def dropCfg : Text → Text
  | [] => []
  | c :: cs =>
    if c = '.' && "cfg".toList.isPrefixOf cs then cs.drop 3 else c :: dropCfg cs

/-- `cfg_r[0-9]+` at the beginning, and what follows it. -/
def afterRegion (cs : Text) : Option Text :=
  let digits := (cs.drop 5).takeWhile Char.isDigit
  if "cfg_r".toList.isPrefixOf cs && digits ≠ [] then some (cs.drop (5 + digits.length)) else none

/-- `m/.cfg_r[0-9]+/`. -/
def hasRegion : Text → Bool
  | [] => false
  | _ :: cs => (afterRegion cs).isSome || hasRegion cs

/-- `s/.cfg_r[0-9]+/.cfg/`. -/
def dropRegion : Text → Text
  | [] => []
  | c :: cs =>
    match afterRegion cs with
    | some rest => ".cfg".toList ++ rest
    | none => c :: dropRegion cs

/-- `m/\.tlist\s*$/`. -/
def isTlist (bm : Text) : Bool := ".tlist".toList.isSuffixOf (bm.rdropWhile Char.isWhitespace)

/-- `m/\.cfx\//`. -/
def isCfx (bm : Text) : Bool := isInfix ".cfx/".toList bm

def getBmName (bm : Text) : Text := dropExtension (basename bm)

/-- The name that `awb-batch` takes from its `-benchmark` argument. -/
def batchName (benchmark : Text) : Text := dropCfg (basename benchmark)

/-! ### Names without dots -/

/-- Letters, digits, `_` and `-`. -/
def Plain (name : Text) : Prop := ∀ c ∈ name, c.isAlphanum ∨ c = '_' ∨ c = '-'

instance (name : Text) : Decidable (Plain name) :=
  List.decidableBAll (fun c : Char => c.isAlphanum = true ∨ c = '_' ∨ c = '-') name

variable {name s t dir : Text} {c : Char}

theorem Plain.not_mem (h : Plain name) (hc : ¬ (c.isAlphanum ∨ c = '_' ∨ c = '-')) : c ∉ name :=
  fun hmem => hc (h c hmem)

theorem Plain.dot (h : Plain name) : '.' ∉ name := h.not_mem (by decide)

theorem Plain.slash (h : Plain name) : '/' ∉ name := h.not_mem (by decide)

theorem basename_of_slash (hdir : dir = [] ∨ dir.getLast? = some '/') (hs : '/' ∉ s) :
    basename (dir ++ s) = s := by
  have hall : ∀ c ∈ s, decide (c ≠ '/') = true := fun c hc =>
    decide_eq_true fun heq => hs (heq ▸ hc)
  have hself : s.rtakeWhile (· ≠ '/') = s := List.rtakeWhile_eq_self_iff.mpr hall
  rcases hdir with rfl | hlast
  · exact hself
  · obtain ⟨front, rfl⟩ := List.getLast?_eq_some_iff.mp hlast
    rw [basename, List.rtakeWhile, List.reverse_append, List.takeWhile_append_of_pos
      fun c hc => hall c (List.mem_reverse.mp hc)]
    simp

/-- A prefix without a dot ends before the dot. -/
theorem isPrefixOf_append_dot {p : Text} (hp : '.' ∉ p) :
    p.isPrefixOf (s ++ '.' :: t) = p.isPrefixOf s := by
  induction p generalizing s with
  | nil => simp
  | cons a p ih =>
    obtain ⟨ha, hp⟩ := List.ne_and_not_mem_of_not_mem_cons hp
    cases s with
    | nil => simpa [List.isPrefixOf] using fun h => absurd h.symm ha
    | cons b s => simp [List.isPrefixOf, ih hp]

/-! ### Removing the extension -/

theorem dropExtension_plain (h : '.' ∉ name) (rest : Text) :
    dropExtension (name ++ '.' :: rest) =
      if isExtension rest then name else name ++ '.' :: dropExtension rest := by
  induction name with
  | nil => simp [dropExtension]
  | cons c name ih =>
    obtain ⟨hc, hname⟩ := List.ne_and_not_mem_of_not_mem_cons h
    rw [List.cons_append, dropExtension, ih hname, if_neg (by simp [Ne.symm hc])]
    split_ifs <;> rfl

theorem dropExtension_of_not_mem (h : '.' ∉ s) : dropExtension s = s := by
  induction s with
  | nil => rfl
  | cons c s ih =>
    obtain ⟨hc, hs⟩ := List.ne_and_not_mem_of_not_mem_cons h
    rw [dropExtension, ih hs, if_neg (by simp [Ne.symm hc])]

theorem dropCfg_plain (h : '.' ∉ name) (rest : Text) :
    dropCfg (name ++ ".cfg".toList ++ rest) = name ++ rest := by
  induction name with
  | nil => rfl
  | cons c name ih =>
    obtain ⟨hc, hname⟩ := List.ne_and_not_mem_of_not_mem_cons h
    rw [List.cons_append, List.cons_append, dropCfg, ih hname, if_neg (by simp [Ne.symm hc])]
    rfl

theorem dropCfg_of_not_mem (h : '.' ∉ s) : dropCfg s = s := by
  induction s with
  | nil => rfl
  | cons c s ih =>
    obtain ⟨hc, hs⟩ := List.ne_and_not_mem_of_not_mem_cons h
    rw [dropCfg, ih hs, if_neg (by simp [Ne.symm hc])]

/-- `cfg` behind the first character of a name. -/
def hasInnerCfg : Text → Bool
  | [] => false
  | _ :: cs => "cfg".toList.isPrefixOf cs || hasInnerCfg cs

theorem dropAnyCfg_of_not_inner (h : hasInnerCfg name = false) : dropAnyCfg name = name := by
  induction name with
  | nil => rfl
  | cons c name ih =>
    obtain ⟨hhere, hrest⟩ := Bool.or_eq_false_iff.mp h
    rw [dropAnyCfg, hhere, if_neg Bool.false_ne_true, ih hrest]

theorem length_dropAnyCfg (h : hasInnerCfg name = true) :
    (dropAnyCfg name).length + 4 = name.length := by
  induction name with
  | nil => cases h
  | cons c name ih =>
    cases hhere : "cfg".toList.isPrefixOf name with
    | true =>
      have hlength := (List.isPrefixOf_iff_prefix.mp hhere).length_le
      rw [dropAnyCfg, hhere, if_pos rfl, List.length_drop, List.length_cons]
      simp at hlength
      omega
    | false =>
      rw [hasInnerCfg, hhere, Bool.false_or] at h
      rw [dropAnyCfg, hhere, if_neg Bool.false_ne_true, List.length_cons, List.length_cons, ← ih h]

theorem dropAnyCfg_eq_self_iff : dropAnyCfg name = name ↔ hasInnerCfg name = false := by
  refine ⟨fun h => Bool.eq_false_iff.mpr fun hinner => ?_, dropAnyCfg_of_not_inner⟩
  have hlength := length_dropAnyCfg hinner
  rw [h] at hlength
  omega

/-- What is removed from the extension, unless the name has a `cfg` itself. -/
theorem dropAnyCfg_cfg (h : '.' ∉ name) (rest : Text) :
    dropAnyCfg (name ++ ".cfg".toList ++ rest) =
      if hasInnerCfg name then dropAnyCfg name ++ ".cfg".toList ++ rest else name ++ rest := by
  induction name with
  | nil => rfl
  | cons c name ih =>
    obtain ⟨-, hname⟩ := List.ne_and_not_mem_of_not_mem_cons h
    have hstarts : "cfg".toList.isPrefixOf (name ++ ".cfg".toList ++ rest) =
        "cfg".toList.isPrefixOf name := by
      rw [List.append_assoc]
      exact isPrefixOf_append_dot (by decide)
    rw [List.cons_append, List.cons_append, dropAnyCfg, dropAnyCfg, hasInnerCfg, hstarts, ih hname]
    cases hhere : "cfg".toList.isPrefixOf name with
    | true =>
      have hlength := (List.isPrefixOf_iff_prefix.mp hhere).length_le
      rw [Bool.true_or, if_pos rfl, if_pos rfl, if_pos rfl, List.append_assoc,
        List.drop_append_of_le_length (by simpa using hlength), List.append_assoc]
    | false =>
      rw [Bool.false_or, if_neg Bool.false_ne_true, if_neg Bool.false_ne_true]
      split_ifs <;> rfl

/-! ### Regions -/

theorem hasRegion_append (h : hasRegion t = true) : hasRegion (s ++ t) = true := by
  induction s with
  | nil => exact h
  | cons c s ih => rw [List.cons_append, hasRegion, ih, Bool.or_true]

theorem hasRegion_cfg {digits : Text} (hdigits : ∀ d ∈ digits, d.isDigit) (hne : digits ≠ []) :
    hasRegion (".cfg_r".toList ++ digits) = true := by
  have htake : digits.takeWhile Char.isDigit = digits := List.takeWhile_eq_self_iff.mpr hdigits
  have hafter : (afterRegion ("cfg_r".toList ++ digits)).isSome = true := by
    have hdrop : ("cfg_r".toList ++ digits).drop 5 = digits := rfl
    have hhere : "cfg_r".toList.isPrefixOf ("cfg_r".toList ++ digits) = true :=
      List.isPrefixOf_iff_prefix.mpr (List.prefix_append ..)
    rw [afterRegion, hdrop, htake, hhere, decide_eq_true hne]
    rfl
  have hcons : hasRegion (".cfg_r".toList ++ digits) =
    ((afterRegion ("cfg_r".toList ++ digits)).isSome || hasRegion ("cfg_r".toList ++ digits)) := rfl
  rw [hcons, hafter, Bool.true_or]

theorem dropRegion_of_not (h : hasRegion s = false) : dropRegion s = s := by
  induction s with
  | nil => rfl
  | cons c s ih =>
    obtain ⟨hhere, hrest⟩ := Bool.or_eq_false_iff.mp h
    have hnone := Option.not_isSome_iff_eq_none.mp (Bool.eq_false_iff.mp hhere)
    rw [dropRegion, hnone, ih hrest]

end Awb.Run
