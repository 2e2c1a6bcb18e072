import Awb.Builder.Module
import Awb.Lib.Multimap
import Mathlib.Data.Char
import Mathlib.Data.List.Lex

/-! The database of modules by provides type, and the default module for a type. -/

namespace Awb

abbrev ModuleDB := Multimap Text Module

namespace ModuleDB
variable (db : ModuleDB)

def findModules (providesType : Text) : ℕ × ℕ := db.equalRange providesType

/-- The one provider with an attribute, among those still to come and the one found before;
`none` if there are several. -/
def findProvider (attr : Text) (found : Option Module) : List Module → Option (Option Module)
  | [] => some found
  | module :: rest =>
    if module.hasAttribute attr then
      match found with
      | some _ => none
      | none => findProvider attr (some module) rest
    else findProvider attr found rest

/-- The loop over the attributes; several providers of one end it. -/
def findByAttribute (providers : List Module) : List Text → Option Module
  | [] => none
  | attr :: attributeList =>
    match findProvider attr none providers with
    | none => none
    | some (some module) => some module
    | some none => findByAttribute providers attributeList

/-- `FindDefaultModule`. The iterator goes one step on even if there is nothing to step over, and
at the end of the database that is undefined. -/
def findDefaultModule (providesType : Text) (attributeList : List Text) :
    Option (Option Module) := do
  let (first, second) := db.findModules providesType
  let it ← db.next first
  if it = second then
    let module ← db.deref first
    return some module
  return findByAttribute (db.between first second) attributeList

/-! ### The documented algorithm -/

/-- The providers with an attribute. -/
def having (providers : List Module) (attr : Text) : List Module :=
  providers.filter (·.hasAttribute attr)

/-- The only element of a list. -/
def single (modules : List Module) : Option Module :=
  if modules.length = 1 then modules.head? else none

/-- No module without a provider, the only one, or the one that the first attribute singles out. -/
def documentedDefault (providers : List Module) (attributeList : List Text) : Option Module :=
  if providers.length ≤ 1 then providers.head?
  else attributeList.findSome? fun attr => single (having providers attr)

/-- The first attribute that any provider has singles one out, or none of them does. -/
def Decisive (providers : List Module) (attributeList : List Text) : Prop :=
  (∃ attr ∈ attributeList, (having providers attr).length = 1) →
    ∃ attr, attributeList.find? (fun attr => having providers attr ≠ []) =
      some attr ∧ (having providers attr).length = 1

section Attributes
variable {providers : List Module} {attr : Text} {attributeList : List Text}

theorem findProvider_some {module : Module} : findProvider attr (some module) providers =
    if having providers attr = [] then some (some module) else none := by
  induction providers with
  | nil => rfl
  | cons first rest ih =>
    rw [findProvider, having, List.filter_cons]
    by_cases h : first.hasAttribute attr
    · rw [if_pos h, if_pos h, if_neg (List.cons_ne_nil _ _)]
    · rw [if_neg h, if_neg h, ih]
      rfl

/-- The search tells no provider, one and several apart. -/
theorem findProvider_none : findProvider attr none providers =
    if (having providers attr).length ≤ 1 then some (having providers attr).head?
    else none := by
  induction providers with
  | nil => rfl
  | cons first rest ih =>
    rw [findProvider, having, List.filter_cons]
    by_cases h : first.hasAttribute attr
    · rw [if_pos h, if_pos h, List.length_cons, List.head?_cons, findProvider_some, having]
      cases rest.filter (·.hasAttribute attr) <;> rfl
    · rw [if_neg h, if_neg h, ih]
      rfl

theorem single_eq_none_iff : single (having providers attr) = none ↔
    (having providers attr).length ≠ 1 := by
  unfold single
  by_cases h : (having providers attr).length = 1
  · obtain ⟨module, hmodule⟩ := List.length_eq_one_iff.mp h
    rw [hmodule]
    simp
  · rw [if_neg h]
    exact iff_of_true rfl h

/-- The loop finds what the documented algorithm finds unless it ends at an attribute of several
providers before one that singles one out. -/
theorem findByAttribute_eq_iff : findByAttribute providers attributeList =
    attributeList.findSome? (fun attr => single (having providers attr)) ↔
      Decisive providers attributeList := by
  induction attributeList with
  | nil => exact iff_of_true rfl fun ⟨_, hmem, _⟩ => by cases hmem
  | cons attr attributeList ih =>
    rw [findByAttribute, findProvider_none, List.findSome?_cons, Decisive, List.find?_cons]
    rcases hhaving : having providers attr with _ | ⟨module, _ | ⟨next, rest⟩⟩
    · -- No provider has it, and both go on.
      have hmore : (∃ attr' ∈ attr :: attributeList, (having providers attr').length = 1) ↔
          ∃ attr' ∈ attributeList, (having providers attr').length = 1 := by
        simp [hhaving]
      rw [hmore]
      exact ih
    · exact iff_of_true rfl fun _ => ⟨attr, rfl, by rw [hhaving]; rfl⟩
    · -- The loop ends here, and is right if nothing is singled out behind.
      have hnone : (attributeList.findSome? fun attr => single (having providers attr)) = none ↔
          ∀ attr' ∈ attributeList, (having providers attr').length ≠ 1 := by
        rw [List.findSome?_eq_none_iff]
        exact forall₂_congr fun _ _ => single_eq_none_iff
      have hshared : (having providers attr).length ≠ 1 := by
        rw [hhaving]
        exact Nat.succ_succ_ne_one _
      change none = (attributeList.findSome? fun attr => single (having providers attr)) ↔ _
      rw [eq_comm, hnone]
      constructor
      · rintro hrest ⟨attr', hattr', hone⟩
        rcases List.mem_cons.mp hattr' with rfl | hattr'
        · exact absurd hone hshared
        · exact absurd hone (hrest attr' hattr')
      · intro hdecisive attr' hattr' hone
        obtain ⟨first, hfirst, hfirstOne⟩ :=
          hdecisive ⟨attr', List.mem_cons_of_mem _ hattr', hone⟩
        obtain rfl := Option.some.inj hfirst
        exact hshared hfirstOne

end Attributes

variable {db} {providesType : Text} {attributeList : List Text}

theorem findDefaultModule_eq : findDefaultModule db providesType attributeList =
    (db.next (db.equalRange providesType).1).bind fun it =>
      if it = (db.equalRange providesType).2 then
        (db.deref (db.equalRange providesType).1).map some
      else some (findByAttribute (db.values providesType) attributeList) := by
  have hbetween := Multimap.between_equalRange (m := db) (k := providesType)
  unfold findDefaultModule findModules
  rcases hrange : db.equalRange providesType with ⟨first, second⟩
  rw [hrange] at hbetween
  rw [← hbetween]
  dsimp only
  cases db.next first with
  | none => rfl
  | some it =>
    change (if it = second then _ else _ : Option (Option Module)) = _
    rw [Option.bind_some]
    split
    · cases db.deref first <;> rfl
    · rfl

theorem findByAttribute_nil : findByAttribute [] attributeList = none := by
  induction attributeList with
  | nil => rfl
  | cons attr attributeList ih => exact ih

/-- Without a provider the step goes over the first module of a greater type. -/
theorem findDefaultModule_nil (h : db.values providesType = []) :
    findDefaultModule db providesType attributeList =
      if ∃ e ∈ db.entries, providesType < e.1 then some none else none := by
  have hrange : (db.equalRange providesType).2 = (db.equalRange providesType).1 := by
    rw [Multimap.equalRange_snd, h, List.length_nil, Nat.add_zero]
  have hgreater : (∃ e ∈ db.entries, providesType ≤ e.1) ↔
      ∃ e ∈ db.entries, providesType < e.1 := by
    refine exists_congr fun e => and_congr_right fun he => ⟨fun hle => ?_, le_of_lt⟩
    refine lt_of_le_of_ne hle fun heq => ?_
    have hmem : e.2 ∈ db.values providesType :=
      List.mem_map.mpr ⟨e, List.mem_filter.mpr ⟨he, by simpa using heq.symm⟩, rfl⟩
    rw [h] at hmem
    cases hmem
  rw [findDefaultModule_eq, Multimap.next, ← if_congr hgreater rfl rfl]
  by_cases hlt : (db.equalRange providesType).1 < db.entries.length
  · have hle := Multimap.equalRange_fst_lt_iff.mp hlt
    rw [if_pos hlt, if_pos hle, Option.bind_some, hrange, if_neg (Nat.succ_ne_self _), h,
      findByAttribute_nil]
  · rw [if_neg hlt, if_neg (mt Multimap.equalRange_fst_lt_iff.mpr hlt)]
    rfl

/-- With providers the step goes over the first one. -/
theorem findDefaultModule_cons {module : Module} {rest : List Module}
    (h : db.values providesType = module :: rest) :
    findDefaultModule db providesType attributeList =
      some (if rest = [] then some module else findByAttribute (module :: rest) attributeList) := by
  have hlt : (db.equalRange providesType).1 < db.entries.length := by
    obtain ⟨e, he, -⟩ := List.mem_map.mp (h ▸ List.mem_cons_self : module ∈ db.values providesType)
    obtain ⟨hmem, heq⟩ := List.mem_filter.mp he
    have hkey : e.1 = providesType := by simpa using heq
    exact Multimap.equalRange_fst_lt_iff.mpr ⟨e, hmem, hkey.ge⟩
  have hone : (db.equalRange providesType).1 + 1 = (db.equalRange providesType).2 ↔ rest = [] := by
    rw [Multimap.equalRange_snd, h, List.length_cons, ← List.length_eq_zero_iff]
    omega
  rw [findDefaultModule_eq, Multimap.next, if_pos hlt, Option.bind_some, if_congr hone rfl rfl,
    Multimap.deref_equalRange h, h]
  split <;> rfl

/-- The function is defined and does what is documented exactly if, without a provider, some module
has a greater type, and with several the first attribute that any of them has decides. -/
theorem findDefaultModule_eq_iff (db : ModuleDB) (providesType : Text)
    (attributeList : List Text) :
    findDefaultModule db providesType attributeList =
        some (documentedDefault (db.values providesType) attributeList) ↔
      (db.values providesType = [] → ∃ e ∈ db.entries, providesType < e.1) ∧
        (1 < (db.values providesType).length →
          Decisive (db.values providesType) attributeList) := by
  cases h : db.values providesType with
  | nil =>
    rw [findDefaultModule_nil h]
    split
    next hgreater => exact iff_of_true rfl ⟨fun _ => hgreater, fun hlt => absurd hlt (by decide)⟩
    next hgreater =>
      exact iff_of_false (Option.some_ne_none _).symm fun hall => hgreater (hall.1 rfl)
  | cons module rest =>
    rw [findDefaultModule_cons h, Option.some_inj, documentedDefault]
    cases rest with
    | nil =>
      refine iff_of_true rfl ⟨fun hnil => ?_, fun hlt => absurd hlt (by simp)⟩
      cases hnil
    | cons next rest =>
      have hlt : 1 < (module :: next :: rest).length := Nat.succ_lt_succ (Nat.succ_pos _)
      rw [if_neg (List.cons_ne_nil _ _), if_neg (Nat.not_le_of_lt hlt), findByAttribute_eq_iff]
      refine ⟨fun hdecisive => ⟨fun hnil => ?_, fun _ => hdecisive⟩, fun hall => hall.2 hlt⟩
      cases hnil

/-- Two providers of a type that share the first of their attributes. -/
def sharedAttribute : ModuleDB :=
  (Multimap.empty.insert ['t']
    { name := ['a'], provides := ['t'], attributeList := [['x']] }).insert ['t']
      { name := ['b'], provides := ['t'], attributeList := [['x'], ['y']] }

theorem findDefaultModule_shared : findDefaultModule sharedAttribute ['t'] [['x'], ['y']] ≠
    some (documentedDefault (sharedAttribute.values ['t']) [['x'], ['y']]) := by
  decide +kernel

end ModuleDB
end Awb
