import Awb.Lib.Runs
import Awb.ModuleTree.Edit

/-! Parent links and lists of submodules in runs of edits. `parent` cannot be cleared, so they agree
as long as no module has to lose its parent. -/

namespace Awb.ModuleTree
variable {μ ω : Type}

/-- An element of an array, undefined beyond its end. -/
def elem (l : List (Option μ)) (i : ℕ) : Option μ := l[i]?.join

theorem mem_iff_elem {l : List (Option μ)} {m : μ} : some m ∈ l ↔ ∃ i, elem l i = some m := by
  simp only [List.mem_iff_getElem?, elem, Option.join_eq_some_iff]

theorem elem_setElem (l : List (Option μ)) (i j : ℕ) (v : Option μ) :
    elem (setElem l i v) j = if j = i then v else elem l j := by
  rw [elem, elem, setElem]
  split
  next hi =>
    rw [List.getElem?_set]
    by_cases hij : i = j
    · subst hij
      simp [hi]
    · simp [hij, Ne.symm hij]
  next hi =>
    rcases Nat.lt_trichotomy j i with hj | rfl | hj
    · rw [if_neg hj.ne]
      by_cases hjl : j < l.length
      · rw [List.append_assoc, List.getElem?_append_left hjl]
      · rw [List.getElem?_append_left (by simp; omega), List.getElem?_append_right (by omega),
          List.getElem?_replicate, List.getElem?_eq_none (by omega)]
        split <;> rfl
    · rw [List.getElem?_append_right (by simp; omega)]
      have hpos : j - (l ++ List.replicate (j - l.length) none).length = 0 := by simp; omega
      rw [hpos, if_pos rfl]
      rfl
    · rw [List.getElem?_eq_none (by simp; omega), List.getElem?_eq_none (by omega), if_neg hj.ne']

namespace Trees
variable (lib : Modules μ)

/-- A module's parent is the module that has it as a submodule. -/
def LinksAgree (s : Trees μ ω) : Prop :=
  ∀ mod self, s.parent mod = some self ↔ some mod ∈ s.submodules self

/-- The links agree, and submodules are in the places for what they provide. -/
structure WellLinked (s : Trees μ ω) : Prop where
  agree : s.LinksAgree
  placed : ∀ self i mod, elem (s.submodules self) i = some mod → index lib self mod = some i

/-- A module is in a place, or the root of a model, and is so no more. -/
def Displaced (s s' : Trees μ ω) (mod : μ) : Prop :=
  (∃ self, some mod ∈ s.submodules self ∧ some mod ∉ s'.submodules self) ∨
    ∃ self, s.system self = some mod ∧ s'.system self ≠ some mod

/-- The links agree after an edit, which took no module out of its place, and a root that was
replaced is in no tree. -/
structure Kept (s s' : Trees μ ω) : Prop where
  wellLinked : s'.WellLinked lib
  places : ∀ self mod, some mod ∈ s.submodules self → some mod ∈ s'.submodules self
  roots : ∀ self root, s.system self = some root → s'.system self ≠ some root →
    s'.parent root = none

/-- What is in the place for a module. -/
def occupant (s : Trees μ ω) (self mod : μ) : Option μ :=
  (index lib self mod).bind (elem (s.submodules self))

/-- There is a place for the module, nothing else is in it, and the module is in no other tree. -/
def CanAdd (s : Trees μ ω) (self mod : μ) : Prop :=
  (index lib self mod).isSome ∧ (∀ old, s.occupant lib self mod = some old → old = mod) ∧
    ∀ p, s.parent mod = some p → p = self

/-- Nothing is in the place for the module, and it is in no tree. -/
def CanRemove (s : Trees μ ω) (self mod : μ) : Prop :=
  s.occupant lib self mod = none ∧ s.parent mod = none

/-- A root that is not kept is not in the tree of another model. -/
def CanUnroot (s : Trees μ ω) (self : ω) (kept : Option μ) : Prop :=
  ∀ root, s.system self = some root → kept ≠ some root → s.parent root = none

/-- The old child has no submodules to take over, or is the new one itself. -/
def CanInherit (s : Trees μ ω) (parent old : Option μ) (child : μ) : Prop :=
  s.inherited parent old = [] ∨ old = some child

end Trees

/-- The edits that keep the links: no module has to lose its parent, and every module that is
added has a place. -/
def Op.Keeps (lib : Modules μ) (s : Trees μ ω) : Op μ ω → Prop
  | moduleAdd self mod => s.CanAdd lib self mod
  | moduleRemove self mod => s.CanRemove lib self mod
  | add self none child => s.CanUnroot self (some child)
  | add _ (some parent) child => s.CanAdd lib parent child
  | remove self none _ => s.CanUnroot self none
  | remove _ (some parent) child => s.CanRemove lib parent child
  | modelroot self value => s.CanUnroot self (some value)
  | smartAdd self (.inl mod) =>
    if lib.provides mod = s.provides self then
      s.CanUnroot self (some mod) ∧ s.CanInherit none (s.system self) mod
    else ∀ fuel parent old,
      s.findPlace lib fuel self (lib.provides mod) = some (some (parent, old)) →
      s.CanAdd lib parent mod ∧ s.CanInherit (some parent) old mod
  | smartAdd self (.inr model) =>
    s.provides model ≠ s.provides self → ∀ fuel parent old root,
      s.findPlace lib fuel self (s.provides model) = some (some (parent, old)) →
      s.system model = some root → s.CanAdd lib parent root

/-- The modules that an edit is asked to remove. -/
def Op.Removes (mod : μ) : Op μ ω → Prop
  | moduleRemove _ child | remove _ (some _) child => child = mod
  | _ => False

namespace Trees
variable {lib : Modules μ} {s s' : Trees μ ω} {self mod m : μ}

theorem occupant_of_index {i : ℕ} (hi : index lib self mod = some i) :
    s.occupant lib self mod = elem (s.submodules self) i := by
  rw [occupant, hi, Option.bind_some]

theorem Kept.refl (h : s.WellLinked lib) : Kept lib s s :=
  ⟨h, fun _ _ hm => hm, fun _ _ hroot hnot => absurd hroot hnot⟩

variable [DecidableEq μ]

/-- What is found in the places after one was assigned to. -/
theorem elem_setSubmodule {i : ℕ} (hi : index lib self mod = some i) (value : Option μ) (q : μ)
    (j : ℕ) : elem ((s.setSubmodule lib self mod value).submodules q) j =
      if q = self ∧ j = i then value else elem (s.submodules q) j := by
  rw [setSubmodule, hi]
  by_cases hq : q = self
  · subst hq
    simp only [Function.update_self, elem_setElem, true_and]
  · simp only [Function.update_of_ne hq, hq, false_and, if_false]

theorem addSubmodule_parent (self mod : μ) :
    (s.addSubmodule lib self mod).parent = Function.update s.parent mod (some self) := by
  rw [addSubmodule, setParent, setSubmodule]
  split <;> rfl

theorem addSubmodule_isroot (self mod : μ) : (s.addSubmodule lib self mod).isroot = s.isroot := by
  rw [addSubmodule, setParent, setSubmodule]
  split <;> rfl

theorem addSubmodule_owner (self mod : μ) : (s.addSubmodule lib self mod).owner = s.owner := by
  rw [addSubmodule, setParent, setSubmodule]
  split <;> rfl

theorem addSubmodule_system (self mod : μ) : (s.addSubmodule lib self mod).system = s.system := by
  rw [addSubmodule, setParent, setSubmodule]
  split <;> rfl

/-- A module that is added goes into the first place for its type, if there is one. -/
theorem elem_addSubmodule (self mod q : μ) (j : ℕ) :
    elem ((s.addSubmodule lib self mod).submodules q) j =
      if q = self ∧ index lib self mod = some j then some mod else elem (s.submodules q) j := by
  cases hi : index lib self mod with
  | none =>
    rw [addSubmodule, setParent, setSubmodule, hi, if_neg (fun h => Option.some_ne_none j h.2.symm)]
  | some i =>
    refine (elem_setSubmodule hi (some mod) q j).trans ?_
    simp only [Option.some.injEq, eq_comm]

/-- A module that fits is put into its place. -/
theorem WellLinked.addSubmodule (h : s.WellLinked lib) (hadd : s.CanAdd lib self mod) :
    Kept lib s (s.addSubmodule lib self mod) := by
  obtain ⟨hplace, hfree, hparent⟩ := hadd
  obtain ⟨i, hi⟩ := Option.isSome_iff_exists.mp hplace
  rw [occupant_of_index hi] at hfree
  have helem : ∀ q j, elem ((s.addSubmodule lib self mod).submodules q) j =
      if q = self ∧ j = i then some mod else elem (s.submodules q) j := by
    intro q j
    simp only [elem_addSubmodule, hi, Option.some.injEq, @eq_comm _ i]
  have hpar : ∀ a, (s.addSubmodule lib self mod).parent a =
      if a = mod then some self else s.parent a := by
    intro a
    rw [addSubmodule_parent, Function.update_apply]
  refine ⟨⟨fun a q => ?_, fun q j a ha => ?_⟩, fun q m hm => ?_, fun w root hroot hnot => ?_⟩
  · rw [mem_iff_elem, hpar]
    by_cases ha : a = mod
    · subst ha
      rw [if_pos rfl]
      constructor
      · rintro hq
        obtain rfl := Option.some.inj hq
        exact ⟨i, by rw [helem, if_pos ⟨rfl, rfl⟩]⟩
      · rintro ⟨j, hj⟩
        rw [helem] at hj
        split at hj
        next hq => rw [hq.1]
        next => rw [hparent q ((h.agree a q).mpr (mem_iff_elem.mpr ⟨j, hj⟩))]
    · rw [if_neg ha, h.agree a q, mem_iff_elem]
      constructor
      · rintro ⟨j, hj⟩
        refine ⟨j, ?_⟩
        rw [helem, if_neg]
        · exact hj
        · rintro ⟨rfl, rfl⟩
          exact ha (hfree a hj)
      · rintro ⟨j, hj⟩
        rw [helem] at hj
        split at hj
        next => exact absurd (Option.some.inj hj).symm ha
        next => exact ⟨j, hj⟩
  · rw [helem] at ha
    split at ha
    next hq =>
      obtain ⟨rfl, rfl⟩ := hq
      obtain rfl := Option.some.inj ha
      exact hi
    next => exact h.placed q j a ha
  · obtain ⟨j, hj⟩ := mem_iff_elem.mp hm
    refine mem_iff_elem.mpr ⟨j, ?_⟩
    rw [helem]
    split
    next hq =>
      obtain ⟨rfl, rfl⟩ := hq
      rw [hfree m hj]
    next => exact hj
  · rw [addSubmodule_system] at hnot
    exact absurd hroot hnot

/-- A submodule that is added to its parent again changes nothing. -/
theorem WellLinked.addSubmodule_again (h : s.WellLinked lib) (hm : some mod ∈ s.submodules self) :
    s.addSubmodule lib self mod = s := by
  obtain ⟨i, hi⟩ := mem_iff_elem.mp hm
  obtain ⟨hlt, hget⟩ := List.getElem?_eq_some_iff.mp (Option.join_eq_some_iff.mp hi)
  have hset : setElem (s.submodules self) i (some mod) = s.submodules self := by
    rw [setElem, if_pos hlt, ← hget, List.set_getElem_self]
  have hparent : Function.update s.parent mod (some self) = s.parent := by
    rw [← (h.agree mod self).mpr hm, Function.update_eq_self]
  rw [Trees.addSubmodule, setSubmodule, h.placed self i mod hi, setParent]
  simp only [hset, Function.update_eq_self, hparent]

/-- A removal that finds nothing changes nothing that is found. -/
theorem WellLinked.removeSubmodule (h : s.WellLinked lib) (hrem : s.CanRemove lib self mod) :
    Kept lib s (s.removeSubmodule lib self mod) ∧
      (s.removeSubmodule lib self mod).parent mod = none := by
  have helem : ∀ q j, elem ((s.removeSubmodule lib self mod).submodules q) j =
      elem (s.submodules q) j := by
    intro q j
    cases hi : index lib self mod with
    | none => rw [Trees.removeSubmodule, setParent, setSubmodule, hi]
    | some i =>
      have hset := elem_setSubmodule (s := s) hi none q j
      refine hset.trans ?_
      split
      next hq =>
        obtain ⟨rfl, rfl⟩ := hq
        rw [← occupant_of_index hi, hrem.1]
      next => rfl
  have hmem : ∀ q m, some m ∈ (s.removeSubmodule lib self mod).submodules q ↔
      some m ∈ s.submodules q := by
    intro q m
    simp only [mem_iff_elem, helem]
  have hpar : (s.removeSubmodule lib self mod).parent = s.parent := by
    rw [Trees.removeSubmodule, setParent, setSubmodule]
    split <;> rfl
  have hsystem : (s.removeSubmodule lib self mod).system = s.system := by
    rw [Trees.removeSubmodule, setParent, setSubmodule]
    split <;> rfl
  refine ⟨⟨⟨fun a q => ?_, fun q j a ha => ?_⟩, fun q m => (hmem q m).mpr,
    fun w root hroot hnot => ?_⟩, ?_⟩
  · rw [hmem, hpar]
    exact h.agree a q
  · rw [helem] at ha
    exact h.placed q j a ha
  · rw [hsystem] at hnot
    exact absurd hroot hnot
  · rw [hpar]
    exact hrem.2

variable [DecidableEq ω] {w : ω} {child : μ}

/-- Another root takes the place of one that is in no tree. -/
theorem WellLinked.setModelroot (h : s.WellLinked lib) (hroot : s.CanUnroot w (some child)) :
    Kept lib s (s.setModelroot lib w child) := by
  refine ⟨⟨h.agree, h.placed⟩, fun _ _ hm => hm, fun w' root hw hnot => ?_⟩
  change Function.update s.system w (some child) w' ≠ some root at hnot
  by_cases hww : w' = w
  · subst hww
    rw [Function.update_self] at hnot
    exact hroot root hw hnot
  · rw [Function.update_of_ne hww] at hnot
    exact absurd hw hnot

theorem WellLinked.removeRoot (h : s.WellLinked lib) (hroot : s.CanUnroot w none) :
    Kept lib s (s.modelRemoveSubmodule lib w none child) := by
  refine ⟨⟨h.agree, h.placed⟩, fun _ _ hm => hm, fun w' root hw hnot => ?_⟩
  change Function.update s.system w none w' ≠ some root at hnot
  by_cases hww : w' = w
  · subst hww
    exact hroot root hw (Option.some_ne_none root).symm
  · rw [Function.update_of_ne hww] at hnot
    exact absurd hw hnot

/-- A new child that takes over nothing, or its own submodules, is added only. -/
theorem WellLinked.replaceChild (h : s.WellLinked lib) {parent old : Option μ}
    (hinherit : s.CanInherit parent old child) :
    s.replaceChild lib w parent old child = s.modelAddSubmodule lib w parent child := by
  have hkept :
      (s.inherited parent old).foldl (fun s sub => s.addSubmodule lib child sub) s = s := by
    rcases hinherit with hnone | rfl
    · rw [hnone]
      rfl
    · have hsubs : ∀ sub ∈ s.inherited parent (some child), some sub ∈ s.submodules child := by
        intro sub hsub
        rw [inherited] at hsub
        split at hsub
        next => cases hsub
        next => simpa using hsub
      generalize s.inherited parent (some child) = subs at hsubs
      induction subs with
      | nil => rfl
      | cons sub subs ih =>
        rw [List.foldl_cons, h.addSubmodule_again (hsubs sub List.mem_cons_self)]
        exact ih fun m hm => hsubs m (List.mem_cons_of_mem sub hm)
  rw [Trees.replaceChild, hkept]

/-- An edit under its condition keeps the links, and what it was asked to remove has no parent. -/
theorem WellLinked.apply (h : s.WellLinked lib) {op : Op μ ω} (hop : op.Keeps lib s) {fuel : ℕ}
    (hs : op.apply lib fuel s = some s') :
    Kept lib s s' ∧ ∀ m, op.Removes m → s'.parent m = none := by
  cases op with
  | moduleAdd self mod =>
    obtain rfl := Option.some.inj hs
    exact ⟨h.addSubmodule hop, fun _ hm => hm.elim⟩
  | moduleRemove self mod =>
    obtain rfl := Option.some.inj hs
    obtain ⟨hkept, hnone⟩ := h.removeSubmodule hop
    exact ⟨hkept, fun m hm => hm ▸ hnone⟩
  | add w parent child =>
    obtain rfl := Option.some.inj hs
    refine ⟨?_, fun _ hm => hm.elim⟩
    cases parent with
    | none => exact h.setModelroot hop
    | some parent => exact h.addSubmodule hop
  | remove w parent child =>
    obtain rfl := Option.some.inj hs
    cases parent with
    | none => exact ⟨h.removeRoot hop, fun _ hm => hm.elim⟩
    | some parent =>
      obtain ⟨hkept, hnone⟩ := h.removeSubmodule hop
      exact ⟨hkept, fun m hm => hm ▸ hnone⟩
  | modelroot w value =>
    obtain rfl := Option.some.inj hs
    exact ⟨h.setModelroot hop, fun _ hm => hm.elim⟩
  | smartAdd w child =>
    refine ⟨?_, fun _ hm => hm.elim⟩
    change s.smartAddSubmodule lib fuel w child = some s' at hs
    rw [smartAddSubmodule.eq_def] at hs
    cases child with
    | inl mod =>
      rw [Op.Keeps] at hop
      split at hs
      next hroot =>
        obtain rfl := Option.some.inj hs
        have hprovides : lib.provides mod = s.provides w := hroot
        rw [if_pos hprovides] at hop
        rw [h.replaceChild hop.2]
        exact h.setModelroot hop.1
      next hinner =>
        have hprovides : lib.provides mod ≠ s.provides w := hinner
        rw [if_neg hprovides] at hop
        obtain ⟨place, hplace, hs⟩ := Option.bind_eq_some_iff.mp hs
        cases place with
        | none => exact Option.some.inj hs ▸ Kept.refl h
        | some place =>
          obtain ⟨parent, old⟩ := place
          obtain rfl := Option.some.inj hs
          obtain ⟨hadd, hinherit⟩ := hop fuel parent old hplace
          rw [h.replaceChild hinherit]
          exact h.addSubmodule hadd
    | inr model =>
      split at hs
      next => exact Option.some.inj hs ▸ Kept.refl h
      next hinner =>
        obtain ⟨place, hplace, hs⟩ := Option.bind_eq_some_iff.mp hs
        cases place with
        | none => exact Option.some.inj hs ▸ Kept.refl h
        | some place =>
          obtain ⟨parent, old⟩ := place
          obtain ⟨root, hroot, rfl⟩ := Option.map_eq_some_iff.mp hs
          exact h.addSubmodule (hop hinner fuel parent old root hplace hroot)

end Trees

variable [DecidableEq μ] [DecidableEq ω]

/-- The links agree in every run whose edits take no module out of a tree and find a place for
every module, and modules that were removed or replaced have no parent. -/
theorem linksAgree_of_run (lib : Modules μ) (s₀ s : Trees μ ω) (ops : List (Op μ ω))
    (hs : s₀.WellLinked lib)
    (run : Lts.Run (Lts.guarded (fun s op => Op.Keeps lib s op) (EditStep lib)) s₀ ops s) :
    s.LinksAgree ∧ ∀ op s', Lts.guarded (fun s op => Op.Keeps lib s op) (EditStep lib) s op s' →
      s'.LinksAgree ∧ ∀ mod, s.Displaced s' mod ∨ op.Removes mod → s'.parent mod = none := by
  have hlinked : s.WellLinked lib := by
    refine run.invariant (fun _ s => s.WellLinked lib) hs ?_
    rintro _ t op t' h ⟨hop, fuel, ht'⟩
    exact (h.apply hop ht').1.wellLinked
  refine ⟨hlinked.agree, ?_⟩
  rintro op s' ⟨hop, fuel, hs'⟩
  obtain ⟨hkept, hremoved⟩ := hlinked.apply hop hs'
  refine ⟨hkept.wellLinked.agree, fun mod hmod => ?_⟩
  rcases hmod with (⟨self, hin, hout⟩ | ⟨self, hroot, hnot⟩) | hmod
  · exact absurd (hkept.places self mod hin) hout
  · exact hkept.roots self mod hroot hnot
  · exact hremoved mod hmod

/-- Three modules and a model: the top requires a core, and the other two provide one. -/
def cores : Modules (Fin 3) where
  provides := fun m => if m = 0 then "top" else "core"
  requires := fun m => if m = 0 then ["core"] else []

/-- They are in no tree yet. -/
def unlinked : Trees (Fin 3) Unit where
  parent := fun _ => none
  submodules := fun _ => []
  isroot := fun _ => false
  owner := fun _ => none
  system := fun _ => none
  provides := fun _ => ""

theorem unlinked_wellLinked : unlinked.WellLinked cores where
  agree := by simp [Trees.LinksAgree, unlinked]
  placed := by simp [elem, unlinked]

/-- The top becomes the root, and a core that is added finds its place under it. -/
theorem linksAgree_of_run_unlinked :
    ∃ s, Lts.Run (Lts.guarded (fun s op => Op.Keeps cores s op) (EditStep cores)) unlinked
        [.modelroot () 0, .smartAdd () (.inl 1)] s ∧
      s.LinksAgree ∧
      ∀ op s', Lts.guarded (fun s op => Op.Keeps cores s op) (EditStep cores) s op s' →
        s'.LinksAgree ∧ ∀ mod, s.Displaced s' mod ∨ op.Removes mod → s'.parent mod = none := by
  have hroot : Op.Keeps cores unlinked (.modelroot () 0) := by
    intro root hr
    cases hr
  have hsmart : Op.Keeps cores (unlinked.setModelroot cores () 0) (.smartAdd () (.inl 1)) := by
    intro fuel parent old hplace
    cases fuel with
    | zero => cases hplace
    | succ n =>
      obtain ⟨rfl, rfl⟩ := Prod.mk.inj (Option.some.inj (Option.some.inj hplace))
      refine ⟨⟨rfl, ?_, ?_⟩, .inl rfl⟩
      · intro old hold
        cases hold
      · intro p hp
        cases hp
  have run : Lts.Run (Lts.guarded (fun s op => Op.Keeps cores s op) (EditStep cores)) unlinked
      [.modelroot () 0, .smartAdd () (.inl 1)] _ :=
    .cons ⟨hroot, 0, rfl⟩ (.cons ⟨hsmart, 1, rfl⟩ .nil)
  exact ⟨_, run, linksAgree_of_run cores unlinked _ _ unlinked_wellLinked run⟩

/-- A core that is removed keeps its parent. -/
theorem not_linksAgree_of_run :
    ¬ ∀ (ops : List (Op (Fin 3) Unit)) (s : Trees (Fin 3) Unit),
      Lts.Run (EditStep cores) unlinked ops s → s.LinksAgree := by
  intro h
  have run : Lts.Run (EditStep cores) unlinked [.moduleAdd 0 1, .moduleRemove 0 1]
      ((unlinked.addSubmodule cores 0 1).removeSubmodule cores 0 1) :=
    .cons ⟨0, rfl⟩ (.cons ⟨0, rfl⟩ .nil)
  have hagree := (h _ _ run 1 0).mp (by decide)
  revert hagree
  decide

end Awb.ModuleTree
