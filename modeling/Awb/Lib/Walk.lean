import Awb.Lib.Gather
import Mathlib.Logic.Relation
import Mathlib.Tactic

/-! A walk through a tree of named entries. A place in the tree is the list of the names that lead
to it. There is no bound on the depth, so the recursion gets fuel. -/

namespace Walk
variable {ν : Type*}

/-- The names that a walk finds at a place, the places that it takes for directories, and those of
them that it enters. -/
structure Tree (ν : Type*) where
  list : List ν → List ν
  isDir : List ν → Bool
  enter : List ν → Bool

namespace Tree
variable (t : Tree ν)

/-- One entry: itself, and what is below a directory that is entered. -/
def item (below : List ν → Option (List (List ν))) (q : List ν) : Option (List (List ν)) :=
  if t.isDir q then
    if t.enter q then (below q).map (q :: ·) else some []
  else some [q]

/-- The directories that are entered below a place, and the files found in them. -/
def walk : ℕ → List ν → Option (List (List ν))
  | 0, _ => none
  | fuel + 1, p => gather (fun name => t.item (walk fuel) (p ++ [name])) (t.list p)

def Child (p q : List ν) : Prop := ∃ name ∈ t.list p, q = p ++ [name]

def Enters (p q : List ν) : Prop := t.Child p q ∧ t.isDir q = true ∧ t.enter q = true

/-- A file or a directory that is entered, in some directory that is. -/
def Seen (p q : List ν) : Prop :=
  ∃ d, Relation.ReflTransGen t.Enters p d ∧ t.Child d q ∧ (t.isDir q = true → t.enter q = true)

variable {t} {fuel : ℕ} {p q : List ν} {found : List (List ν)}

/-- What is seen is a child, or seen below one that is entered. -/
theorem seen_iff : t.Seen p q ↔ ∃ c, t.Child p c ∧
    (c = q ∧ (t.isDir q = true → t.enter q = true) ∨
      (t.isDir c = true ∧ t.enter c = true) ∧ t.Seen c q) := by
  constructor
  · rintro ⟨d, hpath, hchild, henter⟩
    rcases Relation.ReflTransGen.cases_head hpath with rfl | ⟨c, hfirst, hrest⟩
    · exact ⟨q, hchild, .inl ⟨rfl, henter⟩⟩
    · exact ⟨c, hfirst.1, .inr ⟨hfirst.2, d, hrest, hchild, henter⟩⟩
  · rintro ⟨c, hchild, ⟨rfl, henter⟩ | ⟨hdir, d, hrest, hlast, henter⟩⟩
    · exact ⟨p, .refl, hchild, henter⟩
    · exact ⟨d, .head ⟨hchild, hdir⟩ hrest, hlast, henter⟩

theorem mem_item {below : List ν → Option (List (List ν))} {c : List ν}
    {here : List (List ν)} (h : t.item below c = some here) :
    q ∈ here ↔ c = q ∧ (t.isDir q = true → t.enter q = true) ∨
      (t.isDir c = true ∧ t.enter c = true) ∧ ∃ deeper, below c = some deeper ∧ q ∈ deeper := by
  unfold item at h
  split at h
  next hdir =>
    split at h
    next henter =>
      obtain ⟨deeper, hdeeper, rfl⟩ := Option.map_eq_some_iff.mp h
      have hbelow : (∃ deeper', below c = some deeper' ∧ q ∈ deeper') ↔ q ∈ deeper :=
        ⟨fun ⟨_, hd, hq⟩ => Option.some.inj (hdeeper.symm.trans hd) ▸ hq,
          fun hq => ⟨deeper, hdeeper, hq⟩⟩
      rw [List.mem_cons, hbelow]
      constructor
      · rintro (rfl | hq)
        · exact .inl ⟨rfl, fun _ => henter⟩
        · exact .inr ⟨⟨hdir, henter⟩, hq⟩
      · rintro (⟨rfl, -⟩ | ⟨-, hq⟩)
        · exact .inl rfl
        · exact .inr hq
    next henter =>
      obtain rfl := Option.some.inj h
      refine iff_of_false List.not_mem_nil ?_
      rintro (⟨rfl, henter'⟩ | ⟨⟨-, henter'⟩, -⟩)
      · exact henter (henter' hdir)
      · exact henter henter'
  next hdir =>
    obtain rfl := Option.some.inj h
    rw [List.mem_singleton]
    constructor
    · rintro rfl
      exact .inl ⟨rfl, fun hdir' => absurd hdir' hdir⟩
    · rintro (⟨rfl, -⟩ | ⟨⟨hdir', -⟩, -⟩)
      · rfl
      · exact absurd hdir' hdir

/-- A walk finds what can be seen. -/
theorem mem_walk (h : t.walk fuel p = some found) : q ∈ found ↔ t.Seen p q := by
  induction fuel generalizing p found with
  | zero => cases h
  | succ fuel ih =>
    have hitem : q ∈ found ↔ ∃ name ∈ t.list p, ∃ here,
        t.item (t.walk fuel) (p ++ [name]) = some here ∧ q ∈ here := by
      refine ⟨Gather.source_of_mem h, ?_⟩
      rintro ⟨name, hname, here, hhere, hq⟩
      obtain ⟨here', hhere', hsub⟩ := Gather.yield_of_mem h hname
      exact hsub (Option.some.inj (hhere.symm.trans hhere') ▸ hq)
    rw [hitem, seen_iff]
    constructor
    · rintro ⟨name, hname, here, hhere, hq⟩
      refine ⟨p ++ [name], ⟨name, hname, rfl⟩, ((mem_item hhere).mp hq).imp_right ?_⟩
      rintro ⟨henter, deeper, hdeeper, hq⟩
      exact ⟨henter, (ih hdeeper).mp hq⟩
    · rintro ⟨c, ⟨name, hname, rfl⟩, hseen⟩
      obtain ⟨here, hhere, -⟩ := Gather.yield_of_mem h hname
      refine ⟨name, hname, here, hhere, (mem_item hhere).mpr (hseen.imp_right ?_)⟩
      rintro ⟨henter, hseen⟩
      rw [item, if_pos henter.1, if_pos henter.2] at hhere
      obtain ⟨deeper, hdeeper, -⟩ := Option.map_eq_some_iff.mp hhere
      exact ⟨henter, deeper, hdeeper, (ih hdeeper).mpr hseen⟩

/-- What is seen is below the place. -/
theorem Seen.below (h : t.Seen p q) : ∃ name ∈ t.list p, p ++ [name] <+: q := by
  obtain ⟨d, hpath, ⟨last, hlast, rfl⟩, -⟩ := h
  rcases Relation.ReflTransGen.cases_head hpath with rfl | ⟨c, ⟨⟨name, hname, rfl⟩, -⟩, hrest⟩
  · exact ⟨last, hlast, List.prefix_rfl⟩
  · refine ⟨name, hname, List.IsPrefix.trans ?_ (List.prefix_append ..)⟩
    clear hpath hlast
    induction hrest with
    | refl => exact List.prefix_rfl
    | tail _ hstep ih =>
      obtain ⟨⟨name', -, rfl⟩, -⟩ := hstep
      exact ih.trans (List.prefix_append ..)

/-- What holds of all names in the tree holds of the names on the way to a place. -/
theorem forall_mem_of_enters {P : ν → Prop} (hlist : ∀ p, ∀ name ∈ t.list p, P name)
    (hp : ∀ name ∈ p, P name) (h : Relation.ReflTransGen t.Enters p q) : ∀ name ∈ q, P name := by
  induction h with
  | refl => exact hp
  | @tail d c _ hstep ih =>
    obtain ⟨⟨last, hlast, rfl⟩, -⟩ := hstep
    exact List.forall_mem_append.mpr ⟨ih, List.forall_mem_singleton.mpr (hlist d last hlast)⟩

theorem Seen.forall_mem {P : ν → Prop} (hlist : ∀ p, ∀ name ∈ t.list p, P name)
    (hp : ∀ name ∈ p, P name) (h : t.Seen p q) : ∀ name ∈ q, P name := by
  obtain ⟨d, hpath, ⟨last, hlast, rfl⟩, -⟩ := h
  exact List.forall_mem_append.mpr ⟨forall_mem_of_enters hlist hp hpath,
    List.forall_mem_singleton.mpr (hlist d last hlast)⟩

theorem Seen.enters (h : t.Seen p q) (hdir : t.isDir q = true) :
    Relation.ReflTransGen t.Enters p q := by
  obtain ⟨d, hpath, hchild, henter⟩ := h
  exact hpath.tail ⟨hchild, hdir, henter hdir⟩

/-- What one entry yields is at the entry or below. -/
theorem below_item {c : List ν} {here : List (List ν)} (h : t.item (t.walk fuel) c = some here)
    (hq : q ∈ here) : c <+: q := by
  rcases (mem_item h).mp hq with ⟨rfl, -⟩ | ⟨-, deeper, hdeeper, hq⟩
  · exact List.prefix_rfl
  · obtain ⟨name, -, hbelow⟩ := ((mem_walk hdeeper).mp hq).below
    exact (List.prefix_append c [name]).trans hbelow

theorem nodup_item {c : List ν} {here : List (List ν)}
    (hwalk : ∀ {found}, t.walk fuel c = some found → found.Nodup)
    (h : t.item (t.walk fuel) c = some here) : here.Nodup := by
  unfold item at h
  split at h
  · split at h
    · obtain ⟨deeper, hdeeper, rfl⟩ := Option.map_eq_some_iff.mp h
      refine List.nodup_cons.mpr ⟨fun hmem => ?_, hwalk hdeeper⟩
      obtain ⟨name, -, hbelow⟩ := ((mem_walk hdeeper).mp hmem).below
      simpa using hbelow.length_le
    · obtain rfl := Option.some.inj h
      exact List.nodup_nil
  · obtain rfl := Option.some.inj h
    exact List.nodup_singleton c

/-- Nothing is found twice. -/
theorem nodup_walk (hlist : ∀ p, (t.list p).Nodup) (h : t.walk fuel p = some found) :
    found.Nodup := by
  induction fuel generalizing p found with
  | zero => cases h
  | succ fuel ih =>
    have hnames := hlist p
    rw [walk] at h
    generalize t.list p = names at h hnames
    induction names generalizing found with
    | nil =>
      obtain rfl := Option.some.inj h
      exact List.nodup_nil
    | cons name names ihnames =>
      obtain ⟨here, rest, hhere, hrest, rfl⟩ := Gather.cons_eq_some.mp h
      obtain ⟨hname, hnames⟩ := List.nodup_cons.mp hnames
      refine (nodup_item ih hhere).append (ihnames hrest hnames) fun q hq hq' => ?_
      obtain ⟨name', hname', here', hhere', hq'⟩ := Gather.source_of_mem hrest hq'
      have hlast : [name] <+: [name'] := by
        have hprefixes : p ++ [name] <+: p ++ [name'] :=
          List.prefix_of_prefix_length_le (below_item hhere hq) (below_item hhere' hq') (by simp)
        exact (List.prefix_append_right_inj p).mp hprefixes
      obtain rfl : name = name' := by simpa using hlast
      exact hname hname'

/-- In a tree of bounded depth the walk ends. -/
theorem walk_ends {depth : ℕ} (hdepth : ∀ p, depth ≤ p.length → t.list p = [])
    (hfuel : depth ≤ fuel + p.length) : ∃ found, t.walk (fuel + 1) p = some found := by
  induction fuel generalizing p with
  | zero =>
    refine ⟨[], ?_⟩
    rw [walk, hdepth p (by omega)]
    rfl
  | succ fuel ih =>
    refine Gather.exists_of_forall fun name _ => ?_
    obtain ⟨deeper, hdeeper⟩ := @ih (p ++ [name]) (by rw [List.length_append]; simp; omega)
    rw [item, hdeeper]
    split
    · split
      · exact ⟨_, rfl⟩
      · exact ⟨_, rfl⟩
    · exact ⟨_, rfl⟩

end Tree
end Walk
