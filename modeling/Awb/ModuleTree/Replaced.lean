import Awb.ModuleTree.SmartAdd

/-! What `smart_add_submodule` replaces in a tree of modules: the slot of the new module's type, the
values of its parameters and its slots for submodules of the old one. -/

namespace Awb.ModuleTree
variable {μ ω π : Type}

namespace Trees

/-- A module or one of its submodules, theirs and so on. -/
def Below (s : Trees μ ω) : μ → μ → Prop :=
  Relation.ReflTransGen fun m c => some c ∈ s.submodules m

/-- The modules that a model has itself: not those under the root of a submodel. -/
inductive InTree (s : Trees μ ω) (self : ω) : μ → Prop
  | root {m : μ} : s.system self = some m → InTree s self m
  | child {m c : μ} : InTree s self m → some c ∈ s.submodules m → s.isroot c = false →
    InTree s self c

/-- All modules of a model, with those of its submodels. -/
def Member (s : Trees μ ω) (self : ω) (m : μ) : Prop :=
  ∃ root, s.system self = some root ∧ s.Below root m

/-- The tree of a model: submodules are in the slots for their types, no type is required twice, and
no module is under itself. -/
structure ModelTree (lib : Modules μ) (s : Trees μ ω) (w : ω) : Prop where
  provides : ∀ root, s.system w = some root → lib.provides root = s.provides w
  typed : ∀ m i c, s.InTree w m → elem (s.submodules m) i = some c →
    (lib.requires m)[i]? = some (lib.provides c)
  once : ∀ m m' r, s.InTree w m → s.InTree w m' → r ∈ lib.requires m →
    r ∈ lib.requires m' → m = m'
  nodup : ∀ m, s.InTree w m → (lib.requires m).Nodup
  acyclic : ∀ m c, s.InTree w m → some c ∈ s.submodules m → ¬ s.Below c m

end Trees

/-- The parameters whose values change when those of a module or a model are set. -/
def Parameters.Touched (ps : Parameters μ ω π) : μ ⊕ ω → π → Prop
  | .inl mod, p => p ∈ ps.ofModule mod
  | .inr model, p => ∃ q ∈ ps.ofModel model,
    Relation.ReflTransGen (fun a b => ps.originalParameter a = some b) q p

/-- A module that is not in the tree of the model yet, by itself or as the root of a submodel. -/
structure NewChild (lib : Modules μ) (ps : Parameters μ ω π) (s : Trees μ ω) (w : ω)
    (child : μ ⊕ ω) (new : μ) : Prop where
  root : child = .inl new ∨ ∃ model, child = .inr model ∧ s.system model = some new ∧
    s.provides model = lib.provides new
  fresh : ¬ s.Member w new
  ofModule : ∀ m p, s.Member w m → p ∈ ps.ofModule m → ¬ ps.Touched child p
  ofModel : ∀ m model p, s.Member w m → s.owner m = some model → p ∈ ps.ofModel model →
    ¬ ps.Touched child p

/-- The types that a new child requires; a model requires none. -/
def childRequires (lib : Modules μ) : μ ⊕ ω → List String
  | .inl mod => lib.requires mod
  | .inr _ => []

/-- The new module is in the slot for its type: the root of the model, or a submodule. The old child
was there before. -/
def InSlot (lib : Modules μ) (s s' : Trees μ ω) (self : ω) (new : μ) (old : Option μ) : Prop :=
  (lib.provides new = s.provides self ∧ old = s.system self ∧ s'.system self = some new) ∨
    ∃ parent i, s.InTree self parent ∧ (lib.requires parent)[i]? = some (lib.provides new) ∧
      old = elem (s.submodules parent) i ∧ elem (s'.submodules parent) i = some new ∧
      s'.parent new = some parent

/-- What a replacement does: the values are those of the old child's parameters, each the last one
of its name, and the other modules of the model stay as they are, but for the slot. -/
structure ReplacedBy [DecidableEq ω] (lib : Modules μ) (ps : Parameters μ ω π) (s s' : Trees μ ω)
    (values values' : π → String) (w : ω) (child : μ ⊕ ω) (new : μ) (old : Option μ) :
    Prop where
  slot : InSlot lib s s' w new old
  parameters : ∀ o, old = some o → ∃ kept, s.oldParameters ps w o = some kept ∧
    ∀ before p after q, kept = before ++ p :: after → (∀ r ∈ after, ps.name r ≠ ps.name p) →
      ps.find child (ps.name p) = some q → values' q = values p
  submodules : ∀ o, old = some o → (s.isroot o = false ∨ s.system w = some o) →
    ∀ r i c, r ∈ childRequires lib child → (lib.requires o)[i]? = some r →
      elem (s.submodules o) i = some c →
      ∃ j, (lib.requires new).idxOf? r = some j ∧ elem (s'.submodules new) j = some c ∧
        s'.parent c = some new
  others : ∀ m, s.Member w m → (∀ o, old = some o → ¬ s.Below o m) →
    s'.parent m = s.parent m ∧ s'.isroot m = s.isroot m ∧ s'.owner m = s.owner m ∧
    (∀ j, (lib.requires m)[j]? ≠ some (lib.provides new) →
      elem (s'.submodules m) j = elem (s.submodules m) j) ∧
    ∀ p ∈ ps.ofModule m, values' p = values p

/-! ### Values -/

namespace Parameters
variable {ps : Parameters μ ω π} {fuel : ℕ} {values values' : π → String} {child : μ ⊕ ω}
  {pname pvalue : String} {p q : π} {old : List π}

theorem of_find (h : ps.find child pname = some p) :
    p ∈ ps.parameters child ∧ ps.name p = pname := by
  refine ⟨List.mem_of_find?_eq_some h, ?_⟩
  simpa using List.find?_some h

variable [DecidableEq π]

/-- The parameters along the links have one name, and all of them get the value. -/
theorem setOriginals_spec {start : Option π}
    (h : ps.setOriginals pvalue fuel values start = some values')
    (hname : ∀ p, start = some p → ps.name p = pname) :
    (∀ q, values' q = values q ∨ ∃ p, start = some p ∧
      Relation.ReflTransGen (fun a b => ps.originalParameter a = some b) p q ∧
      ps.name q = pname) ∧
    ∀ q, values q = pvalue → values' q = pvalue := by
  induction fuel generalizing values start with
  | zero =>
    cases start with
    | none =>
      obtain rfl := Option.some.inj h
      exact ⟨fun q => .inl rfl, fun q hq => hq⟩
    | some p => cases h
  | succ fuel ih =>
    cases start with
    | none =>
      obtain rfl := Option.some.inj h
      exact ⟨fun q => .inl rfl, fun q hq => hq⟩
    | some p =>
      rw [setOriginals] at h
      have hp := hname p rfl
      obtain ⟨hothers, hkept⟩ := ih h fun q hq => (ps.same_name p q hq).trans hp
      refine ⟨fun q => ?_, fun q hq => hkept q ?_⟩
      · by_cases hqp : q = p
        · exact .inr ⟨p, rfl, hqp ▸ .refl, hqp ▸ hp⟩
        · rcases hothers q with hq | ⟨next, hnext, hchain, hq⟩
          · exact .inl (hq.trans (Function.update_of_ne hqp ..))
          · exact .inr ⟨p, rfl, .head hnext hchain, hq⟩
      · by_cases hqp : q = p
        · rw [hqp, Function.update_self]
        · rw [Function.update_of_ne hqp, hq]

/-- `setparameter` changes parameters of one name only, the first of them to the value. -/
theorem setparameter_spec (h : ps.setparameter fuel values child pname pvalue = some values') :
    (∀ q, values' q = values q ∨ ps.Touched child q ∧ ps.name q = pname) ∧
    ∀ q, ps.find child pname = some q → values' q = pvalue := by
  unfold setparameter at h
  split at h
  next hfind =>
    obtain rfl := Option.some.inj h
    refine ⟨fun q => .inl rfl, fun q hq => ?_⟩
    rw [hfind] at hq
    cases hq
  next p mod hfind =>
    obtain rfl := Option.some.inj h
    obtain ⟨hmem, hname⟩ := of_find hfind
    refine ⟨fun q => ?_, fun q hq => ?_⟩
    · by_cases hqp : q = p
      · exact .inr ⟨hqp ▸ hmem, hqp ▸ hname⟩
      · exact .inl (Function.update_of_ne hqp ..)
    · rw [hfind] at hq
      rw [Option.some.inj hq, Function.update_self]
  next p model hfind =>
    obtain ⟨hmem, hname⟩ := of_find hfind
    obtain ⟨hothers, hkept⟩ := setOriginals_spec h fun q hq => (ps.same_name p q hq).trans hname
    refine ⟨fun q => ?_, fun q hq => hkept q ?_⟩
    · by_cases hqp : q = p
      · exact .inr ⟨⟨p, hmem, hqp ▸ .refl⟩, hqp ▸ hname⟩
      · rcases hothers q with hq | ⟨next, hnext, hchain, hq⟩
        · exact .inl (hq.trans (Function.update_of_ne hqp ..))
        · exact .inr ⟨⟨p, hmem, .head hnext hchain⟩, hq⟩
    · rw [hfind] at hq
      rw [Option.some.inj hq, Function.update_self]

/-- The last of the old parameters with a name gives the new one its value, if setting the new ones
does not change the old ones. -/
theorem keepValues_spec (h : ps.keepValues fuel child values old = some values')
    (hold : ∀ p ∈ old, ¬ ps.Touched child p) :
    (∀ q, ¬ ps.Touched child q → values' q = values q) ∧
    (∀ q, (∀ p ∈ old, ps.name p ≠ ps.name q) → values' q = values q) ∧
    ∀ before p after q, old = before ++ p :: after → (∀ r ∈ after, ps.name r ≠ ps.name p) →
      ps.find child (ps.name p) = some q → values' q = values p := by
  induction old generalizing values with
  | nil =>
    obtain rfl := Option.some.inj h
    refine ⟨fun q _ => rfl, fun q _ => rfl, fun before p after q heq => ?_⟩
    cases before <;> cases heq
  | cons first old ih =>
    rw [keepValues, List.foldlM_cons] at h
    obtain ⟨next, hnext, h⟩ := Option.bind_eq_some_iff.mp h
    obtain ⟨hfirst, hold⟩ := List.forall_mem_cons.mp hold
    obtain ⟨hothers, hset⟩ := setparameter_spec hnext
    obtain ⟨hkeep, hnames, hlast⟩ := ih h hold
    refine ⟨fun q hq => ?_, fun q hq => ?_, fun before p after q heq hafter hfind => ?_⟩
    · exact (hkeep q hq).trans ((hothers q).resolve_right fun h => hq h.1)
    · obtain ⟨hne, hq⟩ := List.forall_mem_cons.mp hq
      exact (hnames q hq).trans ((hothers q).resolve_right fun h => hne h.2.symm)
    · cases before with
      | nil =>
        -- Later parameters have other names, so the value stays.
        obtain ⟨rfl, rfl⟩ := List.cons.inj heq
        have hname := (of_find hfind).2
        rw [hnames q fun r hr => hname ▸ hafter r hr]
        exact hset q hfind
      | cons b before =>
        obtain ⟨rfl, rfl⟩ := List.cons.inj heq
        rw [hlast before p after q rfl hafter hfind]
        have hp : ¬ ps.Touched child p := hold p (by simp)
        exact (hothers p).resolve_right fun h => hp h.1

end Parameters

/-! ### Searches -/

theorem firstFound_some {find : μ → Option (Option μ)} {l : List (Option μ)} {found : μ}
    (h : firstFound find l = some (some found)) :
    ∃ m, some m ∈ l ∧ find m = some (some found) := by
  induction l with
  | nil => cases h
  | cons first l ih =>
    cases first with
    | none =>
      obtain ⟨m, hm, hfind⟩ := ih h
      exact ⟨m, List.mem_cons_of_mem none hm, hfind⟩
    | some first =>
      rw [firstFound] at h
      obtain ⟨result, hresult, h⟩ := Option.bind_eq_some_iff.mp h
      cases result with
      | none =>
        obtain ⟨m, hm, hfind⟩ := ih h
        exact ⟨m, List.mem_cons_of_mem _ hm, hfind⟩
      | some m => exact ⟨first, List.mem_cons_self, hresult.trans h⟩

theorem firstFound_none {find : μ → Option (Option μ)} {l : List (Option μ)}
    (h : firstFound find l = some none) : ∀ m, some m ∈ l → find m = some none := by
  induction l with
  | nil =>
    intro m hm
    cases hm
  | cons first l ih =>
    intro m hm
    cases first with
    | none => exact ih h m ((List.mem_cons.mp hm).resolve_left (Option.some_ne_none m))
    | some first =>
      rw [firstFound] at h
      obtain ⟨result, hresult, h⟩ := Option.bind_eq_some_iff.mp h
      cases result with
      | none =>
        rcases List.mem_cons.mp hm with heq | hm
        · rw [Option.some.inj heq, hresult]
        · exact ih h m hm
      | some m => cases Option.some.inj h

namespace Trees
variable {lib : Modules μ} {s s' : Trees μ ω} {self : ω} {fuel : ℕ} {modtype : String}
  {m found parent : μ} {old : Option μ}

theorem InTree.member (h : s.InTree self m) : s.Member self m := by
  induction h with
  | root hroot => exact ⟨_, hroot, .refl⟩
  | child _ hc _ ih =>
    obtain ⟨root, hroot, hbelow⟩ := ih
    exact ⟨root, hroot, hbelow.tail hc⟩

theorem InTree.of_requiring (hm : s.InTree self m)
    (h : s.findModuleRequiring lib fuel modtype m = some (some found)) :
    s.InTree self found ∧ modtype ∈ lib.requires found := by
  induction fuel generalizing m with
  | zero => cases h
  | succ fuel ih =>
    rw [findModuleRequiring] at h
    split_ifs at h with hreq
    · obtain rfl := Option.some.inj (Option.some.inj h)
      exact ⟨hm, List.contains_iff_mem.mp hreq⟩
    · obtain ⟨c, hc, h⟩ := firstFound_some h
      split_ifs at h with hroot
      · cases Option.some.inj h
      · exact ih (hm.child hc (Bool.eq_false_of_not_eq_true hroot)) h

/-- A search does not go into submodels, but finds their roots. -/
theorem InTree.of_providing {c : μ} (hm : s.InTree self m) (hc : some c ∈ s.submodules m)
    (h : s.findModuleProviding lib fuel true modtype c = some (some found)) :
    lib.provides found = modtype ∧ ∃ q, s.InTree self q ∧ some found ∈ s.submodules q := by
  induction fuel generalizing m c with
  | zero => cases h
  | succ fuel ih =>
    rw [findModuleProviding] at h
    split_ifs at h with hprov hroot
    · obtain rfl := Option.some.inj (Option.some.inj h)
      exact ⟨hprov, m, hm, hc⟩
    · cases Option.some.inj h
    · rw [Bool.true_and] at hroot
      obtain ⟨next, hnext, h⟩ := firstFound_some h
      exact ih (hm.child hc (Bool.eq_false_of_not_eq_true hroot)) hnext h

theorem ModelTree.place_unique (htree : s.ModelTree lib self) (hm : s.InTree self m) {i j : ℕ}
    (hi : (lib.requires m)[i]? = some modtype) (hj : (lib.requires m)[j]? = some modtype) :
    i = j := by
  obtain ⟨hlt, -⟩ := List.getElem?_eq_some_iff.mp hi
  exact (List.getElem?_inj hlt (htree.nodup m hm)).mp (hi.trans hj.symm)

/-- No module but the root provides the type of the model, and none what it requires. -/
theorem ModelTree.provides_ne (htree : s.ModelTree lib self) (hm : s.InTree self m)
    (hreq : modtype ∈ lib.requires m) (htype : modtype ≠ s.provides self) :
    lib.provides m ≠ modtype := by
  rintro rfl
  cases hm with
  | root hroot => exact htype (htree.provides m hroot)
  | @child q _ hq hm hroot =>
    obtain ⟨i, hi⟩ := mem_iff_elem.mp hm
    have hrequired := List.mem_of_getElem? (htree.typed q i m hq hi)
    obtain rfl := htree.once q m _ hq (.child hq hm hroot) hrequired hreq
    exact htree.acyclic q q hq hm .refl

/-- The searches find the slot for a type and what is in it. -/
theorem ModelTree.slot_of_findPlace (htree : s.ModelTree lib self)
    (htype : modtype ≠ s.provides self)
    (h : s.findPlace lib fuel self modtype = some (some (parent, old))) :
    s.InTree self parent ∧ ∃ i, (lib.requires parent)[i]? = some modtype ∧
      old = elem (s.submodules parent) i := by
  unfold findPlace at h
  split at h
  · cases Option.some.inj h
  next root hroot =>
  obtain ⟨place, hplace, h⟩ := Option.bind_eq_some_iff.mp h
  cases place with
  | none => cases Option.some.inj h
  | some q =>
  obtain ⟨found, hfound, heq⟩ := Option.map_eq_some_iff.mp h
  obtain ⟨rfl, rfl⟩ := Prod.mk.inj (Option.some.inj heq)
  obtain ⟨hq, hreq⟩ := (InTree.root hroot).of_requiring hplace
  obtain ⟨i, hi⟩ := List.mem_iff_getElem?.mp hreq
  refine ⟨hq, i, hi, ?_⟩
  cases fuel with
  | zero => cases hfound
  | succ fuel =>
    rw [findModuleProviding, if_neg (htree.provides_ne hq hreq htype)] at hfound
    rw [Bool.false_and, if_neg Bool.false_ne_true] at hfound
    cases found with
    | none =>
      -- The search would have found a submodule that provides the type.
      cases hslot : elem (s.submodules q) i with
      | none => rfl
      | some c =>
        have hnot := firstFound_none hfound c (mem_iff_elem.mpr ⟨i, hslot⟩)
        have hprov : lib.provides c = modtype :=
          Option.some.inj ((htree.typed q i c hq hslot).symm.trans hi)
        cases fuel with
        | zero => cases hnot
        | succ fuel =>
          rw [findModuleProviding, if_pos hprov] at hnot
          cases Option.some.inj hnot
    | some found =>
      -- What is found provides the type, so its parent is the only one that requires it.
      obtain ⟨c, hc, hfound⟩ := firstFound_some hfound
      obtain ⟨hprov, p, hp, hsub⟩ := hq.of_providing hc hfound
      obtain ⟨j, hj⟩ := mem_iff_elem.mp hsub
      have htyped := htree.typed p j found hp hj
      rw [hprov] at htyped
      obtain rfl := htree.once p q _ hp hq (List.mem_of_getElem? htyped) hreq
      obtain rfl := htree.place_unique hp htyped hi
      exact hj.symm

theorem getElem?_of_index {c : μ} {j : ℕ} (h : index lib m c = some j) :
    (lib.requires m)[j]? = some (lib.provides c) := by
  obtain ⟨hlt, heq, -⟩ := List.idxOf?_eq_some_iff.mp h
  rw [List.getElem?_eq_getElem hlt, heq]

theorem ModelTree.index_eq (htree : s.ModelTree lib self) (hm : s.InTree self m) {c : μ} {i : ℕ}
    (hi : (lib.requires m)[i]? = some (lib.provides c)) : index lib m c = some i := by
  obtain ⟨j, hj⟩ := Option.isSome_iff_exists.mp (List.isSome_idxOf?.mpr (List.mem_of_getElem? hi))
  rw [htree.place_unique hm hi (getElem?_of_index hj)]
  exact hj

theorem Member.child {c : μ} (h : s.Member self m) (hc : some c ∈ s.submodules m) :
    s.Member self c := by
  obtain ⟨root, hroot, hbelow⟩ := h
  exact ⟨root, hroot, hbelow.tail hc⟩

theorem mem_inherited {o c : μ} {q : Option μ} (h : (s.isroot o && q.isSome) = false) :
    c ∈ s.inherited q (some o) ↔ some c ∈ s.submodules o := by
  simp [inherited, h]

theorem of_mem_inherited {c : μ} {q : Option μ} (h : c ∈ s.inherited q old) :
    ∃ o, old = some o ∧ some c ∈ s.submodules o := by
  cases old with
  | none => cases h
  | some o =>
    cases hroot : s.isroot o && q.isSome with
    | true =>
      rw [inherited, if_pos hroot] at h
      cases h
    | false => exact ⟨o, rfl, (mem_inherited hroot).mp h⟩

section
variable [DecidableEq ω] [DecidableEq π] {ps : Parameters μ ω π} {child : μ ⊕ ω}
  {values values' : π → String} {new : μ}

theorem keepParameters_spec (hnew : NewChild lib ps s self child new)
    (hold : ∀ o, old = some o → s.Member self o)
    (h : s.keepParameters ps fuel values self child old = some values') :
    (∀ p, ¬ ps.Touched child p → values' p = values p) ∧
      ∀ o, old = some o → ∃ kept, s.oldParameters ps self o = some kept ∧
        ∀ before p after q, kept = before ++ p :: after → (∀ r ∈ after, ps.name r ≠ ps.name p) →
          ps.find child (ps.name p) = some q → values' q = values p := by
  cases old with
  | none =>
    obtain rfl := Option.some.inj h
    exact ⟨fun p _ => rfl, fun o ho => by cases ho⟩
  | some o =>
    obtain ⟨kept, hkept, h⟩ := Option.bind_eq_some_iff.mp h
    have hmem := hold o rfl
    have hfixed : ∀ p ∈ kept, ¬ ps.Touched child p := by
      rw [oldParameters] at hkept
      split_ifs at hkept
      · obtain ⟨model, hmodel, rfl⟩ := Option.map_eq_some_iff.mp hkept
        exact fun p => hnew.ofModel o model p hmem hmodel
      · obtain rfl := Option.some.inj hkept
        exact fun p => hnew.ofModule o p hmem
    obtain ⟨hothers, -, hlast⟩ := Parameters.keepValues_spec h hfixed
    refine ⟨hothers, fun o' ho => ?_⟩
    obtain rfl := Option.some.inj ho
    exact ⟨kept, hkept, hlast⟩

end

/-! ### Links -/

variable [DecidableEq μ]

/-- Modules became submodules of another one, each in the place for its type. -/
structure Adopted (lib : Modules μ) (s s' : Trees μ ω) (m : μ) (subs : List μ) : Prop where
  parent : ∀ a, s'.parent a = if a ∈ subs then some m else s.parent a
  isroot : s'.isroot = s.isroot
  owner : s'.owner = s.owner
  others : ∀ q, q ≠ m → ∀ j, elem (s'.submodules q) j = elem (s.submodules q) j
  kept : ∀ j, (∀ c ∈ subs, index lib m c ≠ some j) →
    elem (s'.submodules m) j = elem (s.submodules m) j
  placed : ∀ c ∈ subs, ∀ j, index lib m c = some j →
    (∀ c' ∈ subs, index lib m c' = some j → c' = c) → elem (s'.submodules m) j = some c

theorem adopted_foldl (subs : List μ) :
    Adopted lib s (subs.foldl (fun s sub => s.addSubmodule lib m sub) s) m subs := by
  induction subs generalizing s with
  | nil => exact ⟨fun _ => rfl, rfl, rfl, fun _ _ _ => rfl, fun _ _ => rfl, fun c hc => by cases hc⟩
  | cons sub subs ih =>
    obtain ⟨hparent, hisroot, howner, hothers, hkept, hplaced⟩ := ih (s := s.addSubmodule lib m sub)
    rw [List.foldl_cons]
    refine ⟨fun a => ?_, hisroot.trans (addSubmodule_isroot m sub),
      howner.trans (addSubmodule_owner m sub), fun q hq j => ?_, fun j hj => ?_,
      fun c hc j hj hunique => ?_⟩
    · rw [hparent, addSubmodule_parent]
      by_cases ha : a = sub
      · simp [ha]
      · simp [ha, Function.update_of_ne]
    · rw [hothers q hq, elem_addSubmodule, if_neg fun h => hq h.1]
    · obtain ⟨hsub, hsubs⟩ := List.forall_mem_cons.mp hj
      rw [hkept j hsubs, elem_addSubmodule, if_neg fun h => hsub h.2]
    · by_cases hmem : c ∈ subs
      · exact hplaced c hmem j hj fun c' hc' => hunique c' (List.mem_cons_of_mem sub hc')
      · obtain rfl : c = sub := (List.mem_cons.mp hc).resolve_right hmem
        rw [hkept j, elem_addSubmodule, if_pos ⟨rfl, hj⟩]
        intro c' hc' hj'
        exact hmem (hunique c' (List.mem_cons_of_mem c hc') hj' ▸ hc')

/-! ### Replacements -/

variable {t : Trees μ ω} {subs : List μ} {new o : μ}

/-- The submodules of an old child get the slots for their types in the module that adopts them. -/
theorem ModelTree.slot_of_adopted (htree : s.ModelTree lib self) (ho : s.InTree self o)
    (ht : Adopted lib s t new subs) (hsubs : ∀ c, c ∈ subs ↔ some c ∈ s.submodules o) {r : String}
    {i : ℕ} {c : μ} (hr : r ∈ lib.requires new) (hi : (lib.requires o)[i]? = some r)
    (hc : elem (s.submodules o) i = some c) :
    ∃ j, (lib.requires new).idxOf? r = some j ∧ elem (t.submodules new) j = some c ∧
      t.parent c = some new := by
  have hmem : c ∈ subs := (hsubs c).mpr (mem_iff_elem.mpr ⟨i, hc⟩)
  obtain rfl : lib.provides c = r := Option.some.inj ((htree.typed o i c ho hc).symm.trans hi)
  obtain ⟨j, hj⟩ := Option.isSome_iff_exists.mp (List.isSome_idxOf?.mpr hr)
  refine ⟨j, hj, ht.placed c hmem j hj fun c' hc' hj' => ?_, ?_⟩
  · obtain ⟨k, hk⟩ := mem_iff_elem.mp ((hsubs c').mp hc')
    have htyped := htree.typed o k c' ho hk
    -- Both provide what the new module requires in this place.
    have hprov : lib.provides c' = lib.provides c :=
      Option.some.inj ((getElem?_of_index hj').symm.trans (getElem?_of_index hj))
    rw [hprov] at htyped
    obtain rfl := htree.place_unique ho htyped hi
    exact Option.some.inj (hk.symm.trans hc)
  · rw [ht.parent, if_pos hmem]

variable [DecidableEq ω] [DecidableEq π] {ps : Parameters μ ω π} {child : μ ⊕ ω}
  {values values' : π → String}

theorem replacedBy_root (htree : s.ModelTree lib self)
    (hnew : NewChild lib ps s self (.inl new) new) (htype : lib.provides new = s.provides self)
    (hkeep : s.keepParameters ps fuel values self (.inl new) (s.system self) = some values') :
    ReplacedBy lib ps s (s.replaceChild lib self none (s.system self) new) values values' self
      (.inl new) new (s.system self) := by
  have hmember : ∀ o, s.system self = some o → s.Member self o := fun o ho => ⟨o, ho, .refl⟩
  obtain ⟨-, hvalues⟩ := keepParameters_spec hnew hmember hkeep
  refine ⟨.inl ⟨htype, rfl, Function.update_self ..⟩, hvalues, fun o ho _ r i c hr hi hc => ?_, ?_⟩
  · rw [ho]
    exact htree.slot_of_adopted (.root ho) (adopted_foldl (s.inherited none (some o)))
      (fun c => mem_inherited (Bool.and_false _)) hr hi hc
  · rintro m ⟨root, hroot, hbelow⟩ hnot
    exact absurd hbelow (hnot root hroot)

/-- The old child in a slot is replaced, when the new one has adopted submodules of it. -/
theorem replacedBy_inner (htree : s.ModelTree lib self) (hnew : NewChild lib ps s self child new)
    (hparent : s.InTree self parent) {i : ℕ}
    (hi : (lib.requires parent)[i]? = some (lib.provides new))
    (hold : old = elem (s.submodules parent) i) (ht : Adopted lib s t new subs)
    (hsubs : ∀ c ∈ subs, ∃ o, old = some o ∧ some c ∈ s.submodules o)
    (hall : ∀ o r, old = some o → s.isroot o = false → r ∈ childRequires lib child →
      r ∈ lib.requires new ∧ ∀ c, c ∈ subs ↔ some c ∈ s.submodules o)
    (hkeep : s.keepParameters ps fuel values self child old = some values') :
    ReplacedBy lib ps s (t.addSubmodule lib parent new) values values' self child new old := by
  have hindex := htree.index_eq hparent hi
  have hsub : ∀ o, old = some o → some o ∈ s.submodules parent := fun o ho =>
    mem_iff_elem.mpr ⟨i, hold.symm.trans ho⟩
  have hmember : ∀ o, old = some o → s.Member self o := fun o ho =>
    hparent.member.child (hsub o ho)
  have hne : ∀ m, s.Member self m → m ≠ new := by
    rintro m hm rfl
    exact hnew.fresh hm
  obtain ⟨hfixed, hvalues⟩ := keepParameters_spec hnew hmember hkeep
  refine ⟨.inr ⟨parent, i, hparent, hi, hold, ?_, ?_⟩, hvalues, ?_, ?_⟩
  · rw [elem_addSubmodule, if_pos ⟨rfl, hindex⟩]
  · rw [addSubmodule_parent, Function.update_self]
  · intro o ho hplain r k c hr hk hc
    have hisroot : s.isroot o = false := by
      refine hplain.resolve_right fun hroot => ?_
      -- The root of the model is under no module of it.
      obtain ⟨root, hroot', hbelow⟩ := hparent.member
      obtain rfl := Option.some.inj (hroot.symm.trans hroot')
      exact htree.acyclic parent o hparent (hsub o ho) hbelow
    obtain ⟨hr, hsubs⟩ := hall o r ho hisroot hr
    have ho' := hparent.child (hsub o ho) hisroot
    obtain ⟨j, hj, hslot, hlink⟩ := htree.slot_of_adopted ho' ht hsubs hr hk hc
    have hc' := (hmember o ho).child (mem_iff_elem.mpr ⟨k, hc⟩)
    refine ⟨j, hj, ?_, ?_⟩
    · rw [elem_addSubmodule, if_neg fun h => hne parent hparent.member h.1.symm, hslot]
    · rw [addSubmodule_parent, Function.update_of_ne (hne c hc'), hlink]
  · -- Members that adopt nothing and are not adopted keep their links.
    intro m hm hnot
    have hout : m ∉ subs := by
      intro hin
      obtain ⟨o, ho, hc⟩ := hsubs m hin
      exact hnot o ho (.single hc)
    refine ⟨?_, ?_, ?_, fun j hj => ?_, fun p hp => hfixed p (hnew.ofModule m p hm hp)⟩
    · rw [addSubmodule_parent, Function.update_of_ne (hne m hm), ht.parent, if_neg hout]
    · rw [addSubmodule_isroot, ht.isroot]
    · rw [addSubmodule_owner, ht.owner]
    · rw [elem_addSubmodule, if_neg, ht.others m (hne m hm)]
      rintro ⟨rfl, hindex'⟩
      exact hj (getElem?_of_index hindex')

/-- A new module or submodel takes the slot for its type, with the values and the submodules of the
old child that it has a use for, and nothing else in the model changes. -/
theorem smartAdd_replaces (lib : Modules μ) (ps : Parameters μ ω π) (s s' : Trees μ ω) (fuel : ℕ)
    (values values' : π → String) (self : ω) (child : μ ⊕ ω) (new : μ)
    (htree : s.ModelTree lib self) (hnew : NewChild lib ps s self child new)
    (h : s.smartAdd lib ps fuel values self child = some (some (s', values'))) :
    ∃ old, ReplacedBy lib ps s s' values values' self child new old := by
  unfold smartAdd at h
  split_ifs at h with htype
  · cases child with
    | inr model => cases Option.some.inj h
    | inl mod =>
      obtain ⟨next, hkeep, heq⟩ := Option.map_eq_some_iff.mp h
      obtain ⟨rfl, rfl⟩ := Prod.mk.inj (Option.some.inj heq)
      obtain rfl : mod = new := by
        rcases hnew.root with heq | ⟨model, heq, -⟩
        · exact Sum.inl.inj heq
        · cases heq
      exact ⟨s.system self, replacedBy_root htree hnew htype hkeep⟩
  · -- An inner place: its parent requires the type, and it may be empty so far.
    obtain ⟨place, hplace, h⟩ := Option.bind_eq_some_iff.mp h
    cases place with
    | none => cases Option.some.inj h
    | some place =>
    obtain ⟨parent, old⟩ := place
    obtain ⟨next, hkeep, h⟩ := Option.bind_eq_some_iff.mp h
    obtain ⟨hparent, i, hi, hold⟩ := htree.slot_of_findPlace htype hplace
    refine ⟨old, ?_⟩
    rcases hnew.root with rfl | ⟨model, rfl, hroot, hprov⟩
    · obtain ⟨rfl, rfl⟩ := Prod.mk.inj (Option.some.inj (Option.some.inj h))
      refine replacedBy_inner htree hnew hparent hi hold (adopted_foldl (s.inherited parent old))
        (fun c hc => of_mem_inherited hc) (fun o r ho hisroot hr => ⟨hr, fun c => ?_⟩) hkeep
      rw [ho]
      exact mem_inherited (by rw [hisroot, Bool.false_and])
    · obtain ⟨root, hroot', heq⟩ := Option.map_eq_some_iff.mp h
      obtain ⟨rfl, rfl⟩ := Prod.mk.inj (Option.some.inj heq)
      obtain rfl := Option.some.inj (hroot'.symm.trans hroot)
      have hi' : (lib.requires parent)[i]? = some (lib.provides root) := hprov ▸ hi
      exact replacedBy_inner htree hnew hparent hi' hold (adopted_foldl [])
        (fun c hc => by cases hc) (fun o r ho hisroot hr => by cases hr) hkeep

end Trees

/-- A top with a core and its cache, and another core that is in no tree. -/
def cached : Modules (Fin 4) where
  provides := !["top", "core", "cache", "core"]
  requires := ![["core"], ["cache"], [], ["net", "cache"]]

def cachedTree : Trees (Fin 4) Unit where
  parent := ![none, some 0, some 1, none]
  submodules := ![[some 1], [some 2], [], []]
  isroot := fun m => m = 0
  owner := fun m => if m = 0 then some () else none
  system := fun _ => some 0
  provides := fun _ => "top"

/-- Both cores have a parameter of one name. -/
def coreSizes : Parameters (Fin 4) Unit Bool where
  ofModule := ![[], [false], [], [true]]
  ofModel := fun _ => []
  name := fun _ => "SIZE"
  originalParameter := fun _ => none
  same_name := fun _ _ h => by cases h

theorem cachedTree_lt {m c : Fin 4} (h : some c ∈ cachedTree.submodules m) : m < c ∧ c ≠ 3 := by
  revert m c
  decide

theorem cachedTree_below {m c : Fin 4} (h : cachedTree.Below m c) : m ≤ c ∧ (m ≠ 3 → c ≠ 3) := by
  induction h with
  | refl => exact ⟨le_refl m, id⟩
  | tail _ hc ih =>
    obtain ⟨hlt, hne⟩ := cachedTree_lt hc
    exact ⟨ih.1.trans hlt.le, fun _ => hne⟩

theorem cachedTree_member {m : Fin 4} (h : cachedTree.Member () m) : m ≠ 3 := by
  obtain ⟨root, hroot, hbelow⟩ := h
  obtain rfl := Option.some.inj hroot
  exact (cachedTree_below hbelow).2 (by decide)

theorem cachedTree_modelTree : cachedTree.ModelTree cached () where
  provides := by
    rintro root ⟨⟩
    rfl
  typed := by
    intro m i c _ hc
    fin_cases m <;> rcases i with _ | i <;> simp_all [elem, cachedTree, cached]
    all_goals rw [← hc]; rfl
  once := by
    intro m m' r hm hm' hr hr'
    have h := cachedTree_member hm.member
    have h' := cachedTree_member hm'.member
    fin_cases m <;> fin_cases m' <;> simp_all [cached]
  nodup := by
    intro m _
    fin_cases m <;> decide
  acyclic := fun m c _ hc hbelow =>
    ((cachedTree_lt hc).1.trans_le (cachedTree_below hbelow).1).false

theorem newChild_core : NewChild cached coreSizes cachedTree () (.inl 3) 3 where
  root := .inl rfl
  fresh := fun h => cachedTree_member h rfl
  ofModule := by
    intro m p hm hp hin
    have h := cachedTree_member hm
    change p ∈ coreSizes.ofModule 3 at hin
    clear hm
    revert m p
    decide
  ofModel := by
    intro m model p _ _ hp
    cases hp

/-- The other core takes over the cache, and the value of the parameter. -/
theorem smartAdd_replaces_core : ∃ s' values',
    cachedTree.smartAdd cached coreSizes 3 (fun p => if p then "4" else "8") () (.inl 3) =
      some (some (s', values')) ∧ elem (s'.submodules 3) 1 = some 2 ∧ values' true = "8" ∧
    ∃ old, ReplacedBy cached coreSizes cachedTree s' (fun p => if p then "4" else "8") values' ()
      (.inl 3) 3 old :=
  ⟨_, _, rfl, rfl, rfl,
    Trees.smartAdd_replaces _ _ _ _ 3 _ _ _ _ _ cachedTree_modelTree newChild_core rfl⟩

end Awb.ModuleTree
