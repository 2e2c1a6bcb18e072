import Awb.Builder.Paths
import Awb.Lib.DepthFirst

/-! The packages that a package depends on: the two recursive searches, of which the one for the
regression also lists the names of packages that are missing. -/

namespace Awb.Package

/-- What a package file says about dependencies, each of them a name, perhaps with a tag. -/
structure PackageFile where
  name : Text
  dependencies : List Text
  regressDependencies : List Text
  deriving DecidableEq

structure PackageDB where
  packages : List PackageFile

/-- `get_package`: the package object with the given name. -/
def PackageDB.getPackage (db : PackageDB) (name : Text) : Option PackageFile :=
  db.packages.find? fun p => p.name = name

/-- An element of the list: a package object, or just a name. -/
inductive Dependent
  | package (p : PackageFile)
  | name (n : Text)
  deriving DecidableEq

inductive Stop
  | fuel
  | died
  deriving DecidableEq, Repr

/-- `$_->name()`, which a name does not have. -/
def Dependent.getName : Dependent → Except Stop Text
  | package p => .ok p.name
  | name _ => .error .died

/-- The name in front of the tag. -/
def depName (dependency : Text) : Text := dependency.takeWhile (· ≠ '/')

/-- `grep {$_->name() eq $n} @p`. -/
def listed (n : Text) (p : List Dependent) : Except Stop Bool := do
  let names ← p.mapM Dependent.getName
  return names.any (· = n)

section
variable (db : PackageDB) (missing : Text → List Dependent → List Dependent)

/-- One dependency. -/
def examine (visit : PackageFile → List Dependent → Except Stop (List Dependent))
    (p : List Dependent) (i : Text) : Except Stop (List Dependent) := do
  let n := depName i
  if ← listed n p then return p
  else
    match db.getPackage n with
    | none => return missing n p
    | some q => visit q p

/-- The recursion of both searches. -/
def dependentPackages (deps : PackageFile → List Text) :
    ℕ → PackageFile → List Dependent → Except Stop (List Dependent)
  | 0, _, _ => .error .fuel
  | fuel + 1, self, p =>
    (deps self).foldlM (examine db missing (dependentPackages deps fuel)) (p ++ [.package self])

end

/-- There is a warning about a missing package. -/
def getDependentPackages (db : PackageDB) :
    ℕ → PackageFile → List Dependent → Except Stop (List Dependent) :=
  dependentPackages db (fun _ p => p) PackageFile.dependencies

/-- The caller is left to handle a missing package. -/
def getRegressDependentPackages (db : PackageDB) :
    ℕ → PackageFile → List Dependent → Except Stop (List Dependent) :=
  dependentPackages db (fun n p => p ++ [.name n]) PackageFile.regressDependencies

/-! ### What should be found -/

def DependsOn (db : PackageDB) (deps : PackageFile → List Text) (p q : PackageFile) : Prop :=
  ∃ i ∈ deps p, db.getPackage (depName i) = some q

def Reachable (db : PackageDB) (deps : PackageFile → List Text) (self q : PackageFile) : Prop :=
  Relation.ReflTransGen (DependsOn db deps) self q

/-- A package that can be reached depends on a name that is missing. -/
def Missing (db : PackageDB) (deps : PackageFile → List Text) (self : PackageFile) (n : Text) :
    Prop :=
  db.getPackage n = none ∧ ∃ q, Reachable db deps self q ∧ n ∈ (deps q).map depName

/-- Every package that can be reached is found once, and nothing else. -/
def FindsPackages (db : PackageDB) (deps : PackageFile → List Text) (self : PackageFile)
    (found : List Dependent) : Prop :=
  found.Nodup ∧ (∀ q, .package q ∈ found ↔ Reachable db deps self q) ∧ ∀ n, .name n ∉ found

/-- Every missing name is found once, too. -/
def FindsMissing (db : PackageDB) (deps : PackageFile → List Text) (self : PackageFile)
    (found : List Dependent) : Prop :=
  found.Nodup ∧ (∀ q, .package q ∈ found ↔ Reachable db deps self q) ∧
    ∀ n, .name n ∈ found ↔ Missing db deps self n

/-- The search ends and returns something right. -/
def Terminates (search : ℕ → PackageFile → List Dependent → Except Stop (List Dependent))
    (self : PackageFile) (right : List Dependent → Prop) : Prop :=
  ∃ found, right found ∧ ∃ fuel, ∀ more, fuel ≤ more → search more self [] = .ok found

/-! ### Names -/

/-- The names that a package with the given name depends on. -/
def nextNames (db : PackageDB) (deps : PackageFile → List Text) (n : Text) : List Text :=
  ((db.getPackage n).elim [] deps).map depName

/-- In the order of a depth-first search, at most the last dependency is missing. -/
def OnlyLastMissing (db : PackageDB) (deps : PackageFile → List Text) (self : PackageFile) : Prop :=
  ∀ visited examined, DepthFirst.Search (nextNames db deps) [self.name]
    (nextNames db deps self.name) visited examined →
      ∀ n ∈ examined.dropLast, db.getPackage n ≠ none

section
variable {db : PackageDB} {deps : PackageFile → List Text} {self p q : PackageFile} {n : Text}
  {visited visited' todo examined : List Text}

theorem PackageDB.name_eq (db : PackageDB) (h : db.getPackage n = some p) : p.name = n :=
  of_decide_eq_true (@List.find?_some _ (fun p : PackageFile => decide (p.name = n)) _ _ h)

theorem leads_of_dependsOn (hp : db.getPackage p.name = some p) (h : DependsOn db deps p q) :
    DepthFirst.Leads (nextNames db deps) p.name q.name := by
  obtain ⟨i, hi, hq⟩ := h
  rw [DepthFirst.Leads, nextNames, hp, db.name_eq hq]
  exact List.mem_map_of_mem hi

theorem present_of_reachable (hself : db.getPackage self.name = some self)
    (h : Reachable db deps self q) : db.getPackage q.name = some q := by
  rcases Relation.ReflTransGen.cases_tail h with rfl | ⟨p, -, i, -, hq⟩
  · exact hself
  · rw [db.name_eq hq]
    exact hq

/-- The names that can be reached are those of packages, and missing ones. -/
theorem leads_iff (hself : db.getPackage self.name = some self) :
    Relation.ReflTransGen (DepthFirst.Leads (nextNames db deps)) self.name n ↔
      (∃ q, Reachable db deps self q ∧ db.getPackage n = some q) ∨ Missing db deps self n := by
  constructor
  · intro h
    induction h with
    | refl => exact Or.inl ⟨self, .refl, hself⟩
    | @tail m n _ hstep ih =>
      rcases ih with ⟨q, hq, hm⟩ | ⟨hmissing, -⟩
      · rw [DepthFirst.Leads, nextNames, hm] at hstep
        obtain ⟨i, hi, rfl⟩ := List.mem_map.mp hstep
        cases hpresent : db.getPackage (depName i) with
        | none => exact Or.inr ⟨hpresent, q, hq, hstep⟩
        | some r => exact Or.inl ⟨r, hq.tail ⟨i, hi, hpresent⟩, rfl⟩
      · rw [DepthFirst.Leads, nextNames, hmissing] at hstep
        cases hstep
  · have hpath : ∀ q, Reachable db deps self q →
        Relation.ReflTransGen (DepthFirst.Leads (nextNames db deps)) self.name q.name := by
      intro q hq
      induction hq with
      | refl => exact .refl
      | tail hp hstep ih => exact ih.tail (leads_of_dependsOn (present_of_reachable hself hp) hstep)
    rintro (⟨q, hq, hn⟩ | ⟨-, q, hq, hn⟩)
    · exact db.name_eq hn ▸ hpath q hq
    · refine (hpath q hq).tail ?_
      rw [DepthFirst.Leads, nextNames, present_of_reachable hself hq]
      exact hn

/-- The search over the names ends. -/
theorem search_names (db : PackageDB) (deps : PackageFile → List Text) (self : PackageFile) :
    ∃ visited examined, DepthFirst.Search (nextNames db deps) [self.name]
      (nextNames db deps self.name) visited examined := by
  have hnodes : ∀ n, ∀ m ∈ nextNames db deps n,
      m ∈ (db.packages.flatMap fun p => (deps p).map depName).toFinset := by
    intro n m hm
    rw [nextNames] at hm
    cases hn : db.getPackage n with
    | none =>
      rw [hn] at hm
      cases hm
    | some p =>
      rw [hn] at hm
      exact List.mem_toFinset.mpr (List.mem_flatMap.mpr ⟨p, List.mem_of_find?_eq_some hn, hm⟩)
  exact DepthFirst.search_total (fun n _ => hnodes n) (hnodes self.name)

theorem nextNames_of_present (h : db.getPackage n = some p) :
    nextNames db deps n = (deps p).map depName := by
  rw [nextNames, h]
  rfl

theorem nextNames_of_missing (h : db.getPackage n = none) : nextNames db deps n = [] := by
  rw [nextNames, h]
  rfl

/-! ### One dependency -/

section
variable {missing : Text → List Dependent → List Dependent} {i : Text} {l : List Dependent}
  {visit : PackageFile → List Dependent → Except Stop (List Dependent)}

theorem mapM_getName (ps : List PackageFile) :
    (ps.map Dependent.package).mapM Dependent.getName = .ok (ps.map PackageFile.name) := by
  induction ps with
  | nil => rfl
  | cons p ps ih =>
    rw [List.map_cons, List.mapM_cons, ih]
    rfl

theorem listed_packages (n : Text) (ps : List PackageFile) :
    listed n (ps.map .package) = .ok (n ∈ ps.map PackageFile.name) := by
  have hany : (ps.map PackageFile.name).any (· = n) = decide (n ∈ ps.map PackageFile.name) := by
    rw [Bool.eq_iff_iff, List.any_eq_true, decide_eq_true_iff]
    simp only [decide_eq_true_eq, exists_eq_right]
  rw [listed, mapM_getName]
  exact congrArg Except.ok hany

/-- There is no way past a name. -/
theorem listed_of_name {m : Text} (h : .name m ∈ l) : listed n l = .error .died := by
  have hmap : l.mapM Dependent.getName = .error .died := by
    induction l with
    | nil => cases h
    | cons d l ih =>
      rw [List.mapM_cons]
      cases d with
      | name m => rfl
      | package q =>
        rcases List.mem_cons.mp h with h | h
        · cases h
        · rw [ih h]
          rfl
  rw [listed, hmap]
  rfl

theorem examine_of_listed (h : listed (depName i) l = .ok true) :
    examine db missing visit l i = .ok l := by
  rw [examine, h]
  rfl

theorem examine_of_missing (h : listed (depName i) l = .ok false)
    (hmissing : db.getPackage (depName i) = none) :
    examine db missing visit l i = .ok (missing (depName i) l) := by
  rw [examine, h]
  simp only [hmissing]
  rfl

theorem examine_of_present (h : listed (depName i) l = .ok false)
    (hpresent : db.getPackage (depName i) = some q) :
    examine db missing visit l i = visit q l := by
  rw [examine, h]
  simp only [hpresent]
  rfl

end

/-! ### Without the missing names -/

/-- The packages with the visited names. -/
def presentPackages (db : PackageDB) (visited : List Text) : List Dependent :=
  (visited.filterMap db.getPackage).map .package

theorem mem_names_filterMap : n ∈ (visited.filterMap db.getPackage).map PackageFile.name ↔
    n ∈ visited ∧ db.getPackage n ≠ none := by
  simp only [List.mem_map, List.mem_filterMap]
  constructor
  · rintro ⟨p, ⟨m, hm, hp⟩, rfl⟩
    rw [db.name_eq hp, hp]
    exact ⟨hm, Option.some_ne_none p⟩
  · rintro ⟨hn, hpresent⟩
    obtain ⟨p, hp⟩ := Option.ne_none_iff_exists'.mp hpresent
    exact ⟨p, ⟨n, hn, hp⟩, db.name_eq hp⟩

theorem listed_presentPackages (db : PackageDB) (n : Text) (visited : List Text) :
    listed n (presentPackages db visited) =
      .ok (decide (n ∈ visited ∧ db.getPackage n ≠ none)) := by
  rw [presentPackages, listed_packages]
  exact congrArg Except.ok (decide_eq_decide.mpr mem_names_filterMap)

/-- A name that is not visited and has no package changes nothing. -/
theorem presentPackages_concat_missing (h : db.getPackage n = none) :
    presentPackages db (visited ++ [n]) = presentPackages db visited := by
  rw [presentPackages, List.filterMap_append, List.filterMap_cons_none h, List.filterMap_nil,
    List.append_nil]
  rfl

theorem presentPackages_concat_present (h : db.getPackage n = some p) :
    presentPackages db (visited ++ [n]) = presentPackages db visited ++ [.package p] := by
  rw [presentPackages, List.filterMap_append, List.filterMap_cons_some h, List.filterMap_nil,
    List.map_append]
  rfl

/-- Missing packages are passed over. -/
theorem examine_all_present
    (h : DepthFirst.Search (nextNames db deps) visited todo visited' examined) :
    ∃ fuel, ∀ more, fuel ≤ more → ∀ l : List Text, l.map depName = todo →
      l.foldlM (examine db (fun _ p => p) (dependentPackages db (fun _ p => p) deps more))
        (presentPackages db visited) = .ok (presentPackages db visited') := by
  induction h with
  | nil =>
    refine ⟨0, fun more _ l hl => ?_⟩
    obtain rfl := List.map_eq_nil_iff.mp hl
    rfl
  | @skip a visited todo visited' examined ha _ ih =>
    obtain ⟨fuel, ih⟩ := ih
    refine ⟨fuel, fun more hmore l hl => ?_⟩
    obtain ⟨i, l, rfl, rfl, hrest⟩ := List.map_eq_cons_iff.mp hl
    have hlisted := listed_presentPackages db (depName i) visited
    rw [List.foldlM_cons]
    by_cases hmissing : db.getPackage (depName i) = none
    · rw [decide_eq_false (fun hand => hand.2 hmissing)] at hlisted
      rw [examine_of_missing hlisted hmissing]
      exact ih more hmore l hrest
    · rw [decide_eq_true ⟨ha, hmissing⟩] at hlisted
      rw [examine_of_listed hlisted]
      exact ih more hmore l hrest
  | @enter a visited todo visited₁ visited₂ examined₁ examined₂ ha h₁ h₂ ih₁ ih₂ =>
    obtain ⟨fuel₁, ih₁⟩ := ih₁
    obtain ⟨fuel₂, ih₂⟩ := ih₂
    refine ⟨max (fuel₁ + 1) fuel₂, fun more hmore l hl => ?_⟩
    obtain ⟨i, l, rfl, rfl, hrest⟩ := List.map_eq_cons_iff.mp hl
    obtain ⟨more, rfl⟩ : ∃ fuel, more = fuel + 1 := Nat.exists_eq_succ_of_ne_zero (by omega)
    have hlisted := listed_presentPackages db (depName i) visited
    rw [decide_eq_false (fun hand => ha hand.1)] at hlisted
    rw [List.foldlM_cons]
    cases hpresent : db.getPackage (depName i) with
    | none =>
      have hfirst := ih₁ more (by omega) [] (nextNames_of_missing hpresent).symm
      rw [presentPackages_concat_missing hpresent] at hfirst
      rw [examine_of_missing hlisted hpresent, Except.ok.inj hfirst]
      exact ih₂ (more + 1) (by omega) l hrest
    | some q =>
      have hfirst := ih₁ more (by omega) (deps q) (nextNames_of_present hpresent).symm
      rw [presentPackages_concat_present hpresent] at hfirst
      rw [examine_of_present hlisted hpresent, dependentPackages, hfirst]
      exact ih₂ (more + 1) (by omega) l hrest

/-! ### With the missing names -/

/-- The package with a name, or just the name. -/
def dependent (db : PackageDB) (n : Text) : Dependent := (db.getPackage n).elim (.name n) .package

theorem dependent_of_present (h : db.getPackage n = some p) : dependent db n = .package p := by
  rw [dependent, h]
  rfl

theorem dependent_of_missing (h : db.getPackage n = none) : dependent db n = .name n := by
  rw [dependent, h]
  rfl

theorem map_dependent_of_present (h : ∀ n ∈ visited, db.getPackage n ≠ none) :
    visited.map (dependent db) = presentPackages db visited := by
  induction visited with
  | nil => rfl
  | cons n visited ih =>
    obtain ⟨hn, hvisited⟩ := List.forall_mem_cons.mp h
    obtain ⟨p, hp⟩ := Option.ne_none_iff_exists'.mp hn
    rw [List.map_cons, ih hvisited, dependent_of_present hp, presentPackages, presentPackages,
      List.filterMap_cons_some hp, List.map_cons]

/-- Behind a missing name nothing more can be examined. -/
theorem examine_all_of_missing {missing : Text → List Dependent → List Dependent}
    {visit : PackageFile → List Dependent → Except Stop (List Dependent)} (hn : n ∈ visited)
    (hmissing : db.getPackage n = none) {l : List Text} (hl : l ≠ []) :
    l.foldlM (examine db missing visit) (visited.map (dependent db)) = .error .died := by
  obtain ⟨i, l, rfl⟩ := List.exists_cons_of_ne_nil hl
  have hname : Dependent.name n ∈ visited.map (dependent db) :=
    List.mem_map.mpr ⟨n, hn, dependent_of_missing hmissing⟩
  rw [List.foldlM_cons, examine, listed_of_name hname]
  rfl

theorem forall_mem_dropLast_append {P : Text → Prop} {front back : List Text}
    (hfront : ∀ n ∈ front, P n) :
    (∀ n ∈ (front ++ back).dropLast, P n) ↔ ∀ n ∈ back.dropLast, P n := by
  cases back with
  | nil =>
    rw [List.append_nil, List.dropLast_nil]
    exact iff_of_true (fun n hn => hfront n (List.mem_of_mem_dropLast hn))
      fun n hn => absurd hn List.not_mem_nil
  | cons b back =>
    rw [List.dropLast_append_of_ne_nil (List.cons_ne_nil b back), List.forall_mem_append,
      and_iff_right hfront]

/-- The last of all is missing if it is the last of its part, and there is none in front of it. -/
theorem forall_mem_dropLast_enter {P : Text → Prop} {a : Text} {examined₁ examined₂ : List Text}
    (ha : P a ∨ examined₁ = []) : (∀ n ∈ (a :: (examined₁ ++ examined₂)).dropLast, P n) ↔
      (∀ n ∈ examined₁.dropLast, P n) ∧
        ((∀ n ∈ a :: examined₁, P n) ∧ (∀ n ∈ examined₂.dropLast, P n) ∨ examined₂ = []) := by
  rw [← List.cons_append]
  by_cases hnil : examined₂ = []
  · subst hnil
    rw [List.append_nil, and_iff_left (Or.inr rfl)]
    rcases ha with ha | rfl
    · exact @forall_mem_dropLast_append _ [a] _ (by simpa using ha)
    · simp
  · rw [List.dropLast_append_of_ne_nil hnil, List.forall_mem_append, or_iff_left hnil]
    refine ⟨fun h => ⟨fun n hn => ?_, h⟩, And.right⟩
    exact h.1 n (List.mem_cons_of_mem a (List.mem_of_mem_dropLast hn))

/-- What the search for the regression does while all visited names are present. -/
theorem examine_all_regress
    (h : DepthFirst.Search (nextNames db deps) visited todo visited' examined)
    (hvisited : ∀ n ∈ visited, db.getPackage n ≠ none) :
    ∃ fuel, ∀ more, fuel ≤ more → ∀ l : List Text, l.map depName = todo →
      l.foldlM (examine db (fun n p => p ++ [.name n])
        (dependentPackages db (fun n p => p ++ [.name n]) deps more))
        (visited.map (dependent db)) =
          if ∀ n ∈ examined.dropLast, db.getPackage n ≠ none then
            .ok (visited'.map (dependent db)) else .error .died := by
  induction h with
  | nil =>
    refine ⟨0, fun more _ l hl => ?_⟩
    obtain rfl := List.map_eq_nil_iff.mp hl
    rw [if_pos (by simp)]
    rfl
  | @skip a visited todo visited' examined ha _ ih =>
    obtain ⟨fuel, ih⟩ := ih hvisited
    refine ⟨fuel, fun more hmore l hl => ?_⟩
    obtain ⟨i, l, rfl, rfl, hrest⟩ := List.map_eq_cons_iff.mp hl
    have hlisted := listed_presentPackages db (depName i) visited
    rw [decide_eq_true ⟨ha, hvisited _ ha⟩, ← map_dependent_of_present hvisited] at hlisted
    have hlast : (∀ n ∈ (depName i :: examined).dropLast, db.getPackage n ≠ none) ↔
        ∀ n ∈ examined.dropLast, db.getPackage n ≠ none :=
      @forall_mem_dropLast_append _ [depName i] _ (by simpa using hvisited _ ha)
    rw [List.foldlM_cons, examine_of_listed hlisted]
    simp only [hlast]
    exact ih more hmore l hrest
  | @enter a visited todo visited₁ visited₂ examined₁ examined₂ ha h₁ h₂ ih₁ ih₂ =>
    have hfirst : ∃ fuel, ∀ more, fuel ≤ more → ∀ i, depName i = a →
        examine db (fun n p => p ++ [.name n])
          (dependentPackages db (fun n p => p ++ [.name n]) deps more)
          (visited.map (dependent db)) i =
            if ∀ n ∈ examined₁.dropLast, db.getPackage n ≠ none then
              .ok (visited₁.map (dependent db)) else .error .died := by
      have hlisted := listed_presentPackages db a visited
      rw [decide_eq_false (fun hand => ha hand.1), ← map_dependent_of_present hvisited] at hlisted
      cases hpresent : db.getPackage a with
      | none =>
        refine ⟨0, fun more _ i hi => ?_⟩
        rw [nextNames_of_missing hpresent] at h₁
        cases h₁
        subst hi
        rw [examine_of_missing hlisted hpresent, if_pos (by simp), List.map_append,
          List.map_singleton, dependent_of_missing hpresent]
      | some q =>
        obtain ⟨fuel, ih⟩ := ih₁ (List.forall_mem_append.mpr ⟨hvisited, by simp [hpresent]⟩)
        refine ⟨fuel + 1, fun more hmore i hi => ?_⟩
        obtain ⟨more, rfl⟩ : ∃ fuel, more = fuel + 1 := Nat.exists_eq_succ_of_ne_zero (by omega)
        have hvisit := ih more (by omega) (deps q) (nextNames_of_present hpresent).symm
        rw [List.map_append, List.map_singleton, dependent_of_present hpresent] at hvisit
        subst hi
        rw [examine_of_present hlisted hpresent, dependentPackages, hvisit]
    have hsecond : ∃ fuel, ∀ more, fuel ≤ more → ∀ l : List Text, l.map depName = todo →
        l.foldlM (examine db (fun n p => p ++ [.name n])
          (dependentPackages db (fun n p => p ++ [.name n]) deps more))
          (visited₁.map (dependent db)) =
            if (∀ n ∈ a :: examined₁, db.getPackage n ≠ none) ∧
                (∀ n ∈ examined₂.dropLast, db.getPackage n ≠ none) ∨ examined₂ = [] then
              .ok (visited₂.map (dependent db)) else .error .died := by
      by_cases hclean : ∀ n ∈ a :: examined₁, db.getPackage n ≠ none
      · have hvisited₁ : ∀ n ∈ visited₁, db.getPackage n ≠ none := by
          intro n hn
          rcases h₁.mem_or_examined hn with hn | hn
          · rcases List.mem_append.mp hn with hn | hn
            · exact hvisited n hn
            · obtain rfl := List.mem_singleton.mp hn
              exact hclean n List.mem_cons_self
          · exact hclean n (List.mem_cons_of_mem a hn)
        obtain ⟨fuel, ih⟩ := ih₂ hvisited₁
        refine ⟨fuel, fun more hmore l hl => (ih more hmore l hl).trans (if_congr ?_ rfl rfl)⟩
        rw [and_iff_right hclean]
        refine ⟨Or.inl, fun h => h.elim id ?_⟩
        rintro rfl
        simp
      · push Not at hclean
        obtain ⟨n, hn, hmissing⟩ := hclean
        have hmem : n ∈ visited₁ := by
          rcases List.mem_cons.mp hn with rfl | hn
          · exact h₁.subset (by simp)
          · exact h₁.examined_subset hn
        refine ⟨0, fun more _ l hl => ?_⟩
        by_cases hnil : l = []
        · subst hnil
          subst hl
          cases h₂
          rw [if_pos (Or.inr rfl)]
          rfl
        · rw [examine_all_of_missing hmem hmissing hnil, if_neg]
          rintro (⟨hall, -⟩ | rfl)
          · exact hall n hn hmissing
          · obtain rfl := List.subset_nil.mp h₂.todo_subset
            exact hnil (List.map_eq_nil_iff.mp hl)
    obtain ⟨fuel₁, hfirst⟩ := hfirst
    obtain ⟨fuel₂, hsecond⟩ := hsecond
    refine ⟨max fuel₁ fuel₂, fun more hmore l hl => ?_⟩
    obtain ⟨i, l, rfl, hi, hrest⟩ := List.map_eq_cons_iff.mp hl
    have hlast := @forall_mem_dropLast_enter (fun n => db.getPackage n ≠ none) a examined₁
      examined₂ (by
        refine or_iff_not_imp_left.mpr fun hmissing => ?_
        rw [nextNames_of_missing (not_not.mp hmissing)] at h₁
        cases h₁
        rfl)
    rw [List.foldlM_cons, hfirst more (by omega) i hi]
    by_cases hpart : ∀ n ∈ examined₁.dropLast, db.getPackage n ≠ none
    · rw [if_pos hpart]
      refine (hsecond more (by omega) l hrest).trans (if_congr ?_ rfl rfl)
      rw [hlast, and_iff_right hpart]
    · rw [if_neg hpart, if_neg fun h => hpart (hlast.mp h).1]
      rfl

/-! ### The two searches -/

theorem getDependentPackages_ends {visited examined : List Text}
    (hself : db.getPackage self.name = some self)
    (h : DepthFirst.Search (nextNames db PackageFile.dependencies) [self.name]
      (nextNames db PackageFile.dependencies self.name) visited examined) :
    ∃ fuel, ∀ more, fuel ≤ more →
      getDependentPackages db more self [] = .ok (presentPackages db visited) := by
  obtain ⟨fuel, h⟩ := examine_all_present h
  refine ⟨fuel + 1, fun more hmore => ?_⟩
  obtain ⟨more, rfl⟩ : ∃ fuel, more = fuel + 1 := Nat.exists_eq_succ_of_ne_zero (by omega)
  have hstart : presentPackages db [self.name] = [] ++ [.package self] :=
    @presentPackages_concat_present db self self.name [] hself
  have hrun := h more (by omega) self.dependencies (nextNames_of_present hself).symm
  rw [hstart] at hrun
  exact hrun

theorem getRegressDependentPackages_ends {visited examined : List Text}
    (hself : db.getPackage self.name = some self)
    (h : DepthFirst.Search (nextNames db PackageFile.regressDependencies) [self.name]
      (nextNames db PackageFile.regressDependencies self.name) visited examined) :
    ∃ fuel, ∀ more, fuel ≤ more → getRegressDependentPackages db more self [] =
      if ∀ n ∈ examined.dropLast, db.getPackage n ≠ none then
        .ok (visited.map (dependent db)) else .error .died := by
  obtain ⟨fuel, h⟩ := examine_all_regress h (by simp [hself])
  refine ⟨fuel + 1, fun more hmore => ?_⟩
  obtain ⟨more, rfl⟩ : ∃ fuel, more = fuel + 1 := Nat.exists_eq_succ_of_ne_zero (by omega)
  have hrun := h more (by omega) self.regressDependencies (nextNames_of_present hself).symm
  rw [List.map_singleton, dependent_of_present hself] at hrun
  exact hrun

theorem dependent_eq_package_iff : dependent db n = .package q ↔ db.getPackage n = some q := by
  cases h : db.getPackage n with
  | none => simp [dependent_of_missing h]
  | some p => simp [dependent_of_present h]

theorem dependent_eq_name_iff {m : Text} :
    dependent db n = .name m ↔ n = m ∧ db.getPackage n = none := by
  cases h : db.getPackage n with
  | none => simp [dependent_of_missing h]
  | some p => simp [dependent_of_present h]

theorem dependent_injective (db : PackageDB) : Function.Injective (dependent db) := by
  intro n m hnm
  cases hm : dependent db m with
  | package q =>
    rw [← db.name_eq (dependent_eq_package_iff.mp (hnm.trans hm)),
      ← db.name_eq (dependent_eq_package_iff.mp hm)]
  | name k =>
    rw [(dependent_eq_name_iff.mp (hnm.trans hm)).1, (dependent_eq_name_iff.mp hm).1]

/-- The packages with visited names are those that can be reached. -/
theorem visited_package_iff {visited examined : List Text}
    (hself : db.getPackage self.name = some self)
    (h : DepthFirst.Search (nextNames db deps) [self.name] (nextNames db deps self.name)
      visited examined) :
    (∃ n ∈ visited, db.getPackage n = some q) ↔ Reachable db deps self q := by
  constructor
  · rintro ⟨n, hn, hq⟩
    rcases (leads_iff hself).mp (h.mem_iff.mp hn) with ⟨r, hr, hn⟩ | ⟨hn, -⟩
    · exact Option.some.inj (hn.symm.trans hq) ▸ hr
    · rw [hn] at hq
      cases hq
  · intro hq
    have hpresent := present_of_reachable hself hq
    exact ⟨q.name, h.mem_iff.mpr ((leads_iff hself).mpr (Or.inl ⟨q, hq, hpresent⟩)), hpresent⟩

theorem findsPackages {visited examined : List Text}
    (hself : db.getPackage self.name = some self)
    (h : DepthFirst.Search (nextNames db deps) [self.name] (nextNames db deps self.name)
      visited examined) : FindsPackages db deps self (presentPackages db visited) := by
  have hnodup : visited.Nodup := h.nodup (List.nodup_singleton _)
  refine ⟨?_, fun q => ?_, fun n hn => ?_⟩
  · refine (hnodup.filterMap fun n m p hn hm => ?_).map fun p q hpq => Dependent.package.inj hpq
    rw [← db.name_eq hn, ← db.name_eq hm]
  · rw [← visited_package_iff hself h, presentPackages,
      List.mem_map_of_injective fun p q hpq => Dependent.package.inj hpq, List.mem_filterMap]
  · obtain ⟨p, -, hp⟩ := List.mem_map.mp hn
    cases hp

theorem findsMissing {visited examined : List Text}
    (hself : db.getPackage self.name = some self)
    (h : DepthFirst.Search (nextNames db deps) [self.name] (nextNames db deps self.name)
      visited examined) : FindsMissing db deps self (visited.map (dependent db)) := by
  have hnodup : visited.Nodup := h.nodup (List.nodup_singleton _)
  refine ⟨hnodup.map (dependent_injective db), fun q => ?_, fun n => ?_⟩
  · simp only [← visited_package_iff hself h, List.mem_map, dependent_eq_package_iff]
  · simp only [List.mem_map, dependent_eq_name_iff]
    constructor
    · rintro ⟨m, hm, rfl, hmissing⟩
      rcases (leads_iff hself).mp (h.mem_iff.mp hm) with ⟨q, -, hq⟩ | hm
      · rw [hmissing] at hq
        cases hq
      · exact hm
    · intro hn
      exact ⟨n, h.mem_iff.mpr ((leads_iff hself).mpr (Or.inr hn)), rfl, hn.1⟩

end

/-! ### Three packages -/

/-- A package and one that it needs, with a name that is missing behind it. -/
def missingLast : PackageDB :=
  ⟨[⟨"core".toList, ["util".toList], ["util/HEAD".toList, "gone".toList]⟩,
    ⟨"util".toList, ["core".toList], ["core".toList]⟩]⟩

def core : PackageFile :=
  ⟨"core".toList, ["util".toList], ["util/HEAD".toList, "gone".toList]⟩

/-- The missing name is examined first. -/
def missingFirst : PackageDB :=
  ⟨[⟨"core".toList, [], ["gone".toList, "util/HEAD".toList]⟩, ⟨"util".toList, [], []⟩]⟩

def coreFirst : PackageFile := ⟨"core".toList, [], ["gone".toList, "util/HEAD".toList]⟩

end Awb.Package
