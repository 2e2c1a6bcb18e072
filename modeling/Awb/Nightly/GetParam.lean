import Awb.Workspace.Options
import Mathlib.Order.Nat

/-! The lookup of a parameter of a nightly regression in `regressionrc`, where a group can name
another one that it includes. -/

namespace Awb.Nightly
open Inifile

inductive Outcome
  | returned (value : Text) (line : Text)
  | exitFailure (failure : Text)
  | died
  deriving DecidableEq

def includeItem : Text := "INCLUDE".toList

def globalGroup : Text := "GLOBAL".toList

/-- `_get_rcfile_param`, or nothing if it dies. -/
def getRcfileParam (ini : LoadedInifile) (group name : Text) : Option (Option Text) :=
  match ini.get group name with
  | some value => some (some value)
  | none =>
    match ini.get group includeItem with
    -- called as a plain function: the included group is `$self`, and `$self->{inifile}` is an error
    | some _ => none
    | none => some (ini.get globalGroup name)

def failureText (group name : Text) : Text :=
  "missing regressionrc parameter: [".toList ++ group ++ "] ".toList ++ name

def lineText (group name value : Text) : Text :=
  "Parameter: [".toList ++ group ++ "] ".toList ++ name ++ " = ".toList ++ value

/-- What becomes of a parameter with a value, or without one. -/
def finish (group name : Text) : Option Text → Outcome
  | some value => .returned value (lineText group name value)
  | none => .exitFailure (failureText group name)

/-- `get_param` -/
def getParam (ini : LoadedInifile) (group name : Text) (default : Option Text) : Outcome :=
  match getRcfileParam ini group name with
  | none => .died
  | some value => finish group name (value.or default)

/-! ### The order of the groups -/

/-- The group, the one that it includes, and so on. -/
def chain (ini : LoadedInifile) (group : Text) : ℕ → Option Text
  | 0 => some group
  | k + 1 => (chain ini group k).bind (ini.valueIn · includeItem)

/-- The value in a group of the chain. -/
def valueAt (ini : LoadedInifile) (group name : Text) (k : ℕ) : Option Text :=
  (chain ini group k).bind (ini.valueIn · name)

open Classical in
/-- The value in the first group of the chain that has one; a chain need not end. -/
noncomputable def valueInChain (ini : LoadedInifile) (group name : Text) : Option Text :=
  if h : ∃ k, (valueAt ini group name k).isSome then valueAt ini group name (Nat.find h) else none

/-- What is used if no group of the chain has a value. -/
def fallback (ini : LoadedInifile) (name : Text) (default : Option Text) : Option Text :=
  (ini.valueIn globalGroup name).or default

noncomputable def documented (ini : LoadedInifile) (group name : Text) (default : Option Text) :
    Option Text :=
  (valueInChain ini group name).or (fallback ini name default)

section
variable {ini : LoadedInifile} {group name : Text}

/-- The group itself comes first. -/
theorem valueInChain_of_some {value : Text} (h : ini.valueIn group name = some value) :
    valueInChain ini group name = some value := by
  have hzero : valueAt ini group name 0 = some value := h
  have hex : ∃ k, (valueAt ini group name k).isSome := ⟨0, by rw [hzero, Option.isSome_some]⟩
  have hfind : Nat.find hex = 0 := (Nat.find_eq_zero hex).mpr (by rw [hzero, Option.isSome_some])
  rw [valueInChain, dif_pos hex, hfind, hzero]

/-- A chain that ends at once. -/
theorem valueInChain_of_none (h : ini.valueIn group name = none)
    (hinclude : ini.valueIn group includeItem = none) : valueInChain ini group name = none := by
  have hend : ∀ k, chain ini group (k + 1) = none := by
    intro k
    induction k with
    | zero => exact hinclude
    | succ k ih => rw [chain, ih, Option.bind_none]
  refine dif_neg ?_
  rintro ⟨k, hk⟩
  cases k with
  | zero => simp [valueAt, chain, h] at hk
  | succ k => simp [valueAt, hend] at hk

/-- `get` looks into all groups but `0`. -/
theorem get_eq_valueIn (hgroup : group ≠ ['0']) (item : Text) :
    ini.get group item = ini.valueIn group item := by
  rw [LoadedInifile.get, Perl.get, LoadedInifile.valueIn, Perl.falsy]
  by_cases hempty : group = []
  · simp [hempty]
  · simp [hempty, hgroup]

theorem get_zero (item : Text) : ini.get ['0'] item = none := rfl

theorem finish_injective : Function.Injective (finish group name) := by
  intro v v' h
  cases v with
  | none =>
    cases v' with
    | none => rfl
    | some value' => cases h
  | some value =>
    cases v' with
    | none => cases h
    | some value' => rw [(Outcome.returned.inj h).1]

theorem finish_ne_died (value : Option Text) : finish group name value ≠ .died := by
  cases value <;> exact Outcome.noConfusion

/-- The documented value is found in a group that has it, or that includes no other. The group `0`
is not looked into. -/
theorem getParam_eq_documented_iff (ini : LoadedInifile) (group name : Text)
    (default : Option Text) :
    getParam ini group name default = finish group name (documented ini group name default) ↔
      if group = ['0'] then ∀ value ∈ valueInChain ini group name,
        fallback ini name default = some value
      else ini.valueIn group name ≠ none ∨ ini.valueIn group includeItem = none := by
  have hglobal : ini.get globalGroup name = ini.valueIn globalGroup name :=
    get_eq_valueIn (by decide) name
  rw [getParam, getRcfileParam]
  by_cases hzero : group = ['0']
  · subst hzero
    rw [if_pos rfl, get_zero, get_zero, hglobal]
    refine finish_injective.eq_iff.trans ?_
    rw [documented, ← fallback]
    cases hchain : valueInChain ini ['0'] name with
    | none => simp
    | some value => simp
  · rw [if_neg hzero, get_eq_valueIn hzero, get_eq_valueIn hzero, hglobal]
    cases hvalue : ini.valueIn group name with
    | some value =>
      refine iff_of_true ?_ (Or.inl (Option.some_ne_none value))
      rw [documented, valueInChain_of_some hvalue]
      rfl
    | none =>
      cases hinclude : ini.valueIn group includeItem with
      | none =>
        refine iff_of_true ?_ (Or.inr rfl)
        rw [documented, valueInChain_of_none hvalue hinclude]
        rfl
      | some included =>
        -- the program ends, whatever should be found
        refine iff_of_false ?_ (by simp)
        exact fun hdied => finish_ne_died _ hdied.symm

end

/-- A `regressionrc` with a group that includes another one. -/
def includingGroup : FileSystem Unit where
  read _ file :=
    if file = "regressionrc".toList then
      some "[nightly]\nINCLUDE=common\n[common]\ntarget=asim\n".toList
    else none
  chdir _ _ := some ()
  stdin := []

/-- The parameter is in the included group. -/
theorem not_getParam_eq_documented :
    ∃ ini, LoadedInifile.new includingGroup () 1 "regressionrc".toList = some ini ∧
      getParam ini "nightly".toList "target".toList none ≠ finish "nightly".toList "target".toList
        (documented ini "nightly".toList "target".toList none) := by
  have hread : (LoadedInifile.new includingGroup () 1 "regressionrc".toList).map (fun ini =>
      getParam ini "nightly".toList "target".toList none) = some .died := by
    decide +kernel
  obtain ⟨ini, hini, hdied⟩ := Option.map_eq_some_iff.mp hread
  refine ⟨ini, hini, ?_⟩
  rw [hdied]
  exact (finish_ne_died _).symm

end Awb.Nightly
