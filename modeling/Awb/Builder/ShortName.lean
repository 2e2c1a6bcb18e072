import Awb.Builder.Module

/-! The directories of the module instances in the build tree. `createShortName` leaves a name
out that a module shares with its ancestors, and with it what keeps two modules apart. -/

namespace Awb

/-- What `CreateShortName` puts below the directory of the parent. -/
def shortProvides (modPath : Text) (m : Module) : Text :=
  (splitString ['/'] modPath).foldl
    (fun short component =>
      if component ≠ [] ∧ component.isPrefixOf m.provides then
        trimLeft "_-.".toList (m.provides.drop component.length)
      else short)
    m.provides

def createShortName (modPath modShortPath : Text) (m : Module) : Text :=
  fileJoin modShortPath (shortProvides modPath m)

/-- Where the recursion over the module tree is: the path of provides types, and the directory. -/
structure Place where
  modulePath : Text
  moduleShortPath : Text
  deriving DecidableEq, Repr

namespace Place

def root : Place := ⟨"system".toList, "system".toList⟩

/-- The place of a submodule. -/
def sub (p : Place) (_parent child : Instance) : Place where
  modulePath := fileJoin p.modulePath child.provides
  moduleShortPath := createShortName p.modulePath p.moduleShortPath child.module

/-- The directory, without a trailing slash. -/
def directory (p : Place) : Text := p.moduleShortPath.rdropWhile (· = '/')

end Place

/-- All module instances at their places. -/
def placements (t : ModuleInstance) : List (Place × ModuleInstance) :=
  t.down Place.sub Place.root

/-- The short names of the submodules. -/
def shortNames (p : Place × ModuleInstance) : List Text :=
  p.2.children.map fun s => shortProvides p.1.modulePath s.label.module

section names
variable {name dir x : Text}

theorem trimLeft_suffix (trimChars str : Text) : trimLeft trimChars str <:+ str :=
  List.dropWhile_suffix _

theorem shortProvides_suffix (modPath : Text) (m : Module) :
    shortProvides modPath m <:+ m.provides := by
  have hfold : ∀ (components : List Text) (short : Text), short <:+ m.provides →
      components.foldl (fun short component =>
        if component ≠ [] ∧ component.isPrefixOf m.provides then
          trimLeft "_-.".toList (m.provides.drop component.length)
        else short) short <:+ m.provides := by
    intro components
    induction components with
    | nil => exact fun short h => h
    | cons component components ih =>
      intro short h
      rw [List.foldl_cons]
      apply ih
      split
      · exact (trimLeft_suffix _ _).trans (List.drop_suffix _ _)
      · exact h
  exact hfold _ _ List.suffix_rfl

theorem slash_not_mem_shortProvides {modPath : Text} {m : Module} (h : '/' ∉ m.provides) :
    '/' ∉ shortProvides modPath m :=
  fun hmem => h ((shortProvides_suffix modPath m).subset hmem)

/-- A directory that is not empty and has no trailing slash. -/
def Plain (dir : Text) : Prop := dir ≠ [] ∧ dir.getLast? ≠ some '/'

theorem rdropWhile_of_plain (h : Plain dir) : dir.rdropWhile (· = '/') = dir := by
  rw [List.rdropWhile_eq_self_iff]
  intro hne
  have hlast := h.2
  rw [List.getLast?_eq_some_getLast hne] at hlast
  simpa using hlast

theorem not_isAbsolutePath (h : '/' ∉ name) : isAbsolutePath name = false := by
  cases name with
  | nil => rfl
  | cons c name =>
    have hc : c ≠ '/' := fun he => h (he ▸ List.mem_cons_self ..)
    simpa [isAbsolutePath] using hc

theorem fileJoin_of_plain (hdir : Plain dir) (hname : '/' ∉ name) :
    fileJoin dir name = dir ++ '/' :: name := by
  simp [fileJoin, not_isAbsolutePath hname, hdir.1, hdir.2]

theorem plain_fileJoin (hdir : Plain dir) (hname : '/' ∉ name) (hne : name ≠ []) :
    Plain (fileJoin dir name) := by
  rw [fileJoin_of_plain hdir hname]
  refine ⟨by simp, ?_⟩
  rw [List.getLast?_append, List.getLast?_cons, List.getLast?_eq_some_getLast hne]
  have hmem := List.getLast_mem hne
  simp only [Option.getD_some, Option.some_or, ne_eq, Option.some.injEq]
  exact fun he => hname (he ▸ hmem)

/-- A name below a directory is read off what follows the directory. -/
theorem takeWhile_of_prefix {rest : Text} (hname : '/' ∉ name) (h : name ++ ['/'] <+: rest) :
    rest.takeWhile (· ≠ '/') = name := by
  obtain ⟨t, rfl⟩ := h
  have hall : ∀ c ∈ name, decide (c ≠ '/') = true := by
    intro c hc
    have : c ≠ '/' := fun he => hname (he ▸ hc)
    simpa using this
  rw [List.append_assoc, List.takeWhile_append_of_pos hall]
  simp

end names

/-- The components of the module path that the provides name starts with. -/
def prefixComponents (modPath provides : Text) : List Text :=
  (splitString ['/'] modPath).filter fun component =>
    component ≠ [] ∧ component.isPrefixOf provides

/-- The short name without the longest such component, or the provides name if there is none. -/
structure RemovesLongest (modPath provides short : Text) : Prop where
  unchanged : prefixComponents modPath provides = [] → short = provides
  removed : ∀ component ∈ prefixComponents modPath provides,
    (∀ other ∈ prefixComponents modPath provides, other.length ≤ component.length) →
      short = trimLeft "_-.".toList (provides.drop component.length)

section longest
variable {trimChars str front : Text} {modPath : Text} {m : Module}

theorem trimLeft_append_iff :
    trimLeft trimChars (front ++ str) = trimLeft trimChars str ↔ ∀ c ∈ front, c ∈ trimChars := by
  constructor
  · intro h
    induction front with
    | nil => simp
    | cons c front ih =>
      by_cases hc : c ∈ trimChars
      · have htail : trimLeft trimChars (front ++ str) = trimLeft trimChars str := by
          simpa [trimLeft, hc] using h
        exact List.forall_mem_cons.mpr ⟨hc, ih htail⟩
      · -- The first character stays, so more is left than a suffix of what follows.
        have hkeep : trimLeft trimChars (c :: front ++ str) = c :: front ++ str := by
          simp [trimLeft, hc]
        have hle := (trimLeft_suffix trimChars str).length_le
        rw [← h, hkeep] at hle
        simp at hle
  · intro h
    exact List.dropWhile_append_of_pos (by simpa using h)

/-- The loop keeps what the last of the components leaves. -/
theorem shortProvides_eq :
    shortProvides modPath m = ((prefixComponents modPath m.provides).getLast?.map fun last =>
      trimLeft "_-.".toList (m.provides.drop last.length)).getD m.provides := by
  unfold shortProvides prefixComponents
  induction splitString ['/'] modPath using List.reverseRecOn with
  | nil => rfl
  | append_singleton components component ih =>
    rw [List.foldl_concat, List.filter_append, ih]
    by_cases h : component ≠ [] ∧ component.isPrefixOf m.provides
    · rw [if_pos h, List.filter_cons_of_pos (by simpa using h), List.filter_nil,
        List.getLast?_concat]
      rfl
    · rw [if_neg h, List.filter_cons_of_neg (by simpa using h), List.filter_nil, List.append_nil]

theorem exists_longest {texts : List Text} (hne : texts ≠ []) :
    ∃ longest ∈ texts, ∀ other ∈ texts, other.length ≤ longest.length := by
  obtain ⟨longest, hlongest⟩ := Option.ne_none_iff_exists'.mp
    (mt (List.argmax_eq_none (f := List.length)).mp hne)
  exact ⟨longest, List.argmax_mem hlongest, fun other hother =>
    List.le_of_mem_argmax hother hlongest⟩

theorem isPrefix_of_mem_prefixComponents {component : Text}
    (h : component ∈ prefixComponents modPath m.provides) : component <+: m.provides := by
  have hand := (List.mem_filter.mp h).2
  simp only [ne_eq, decide_eq_true_eq] at hand
  exact List.isPrefixOf_iff_prefix.mp hand.2

/-- What is left of the name behind a shorter prefix starts with the rest of the longer one. -/
theorem drop_of_prefixes {last component provides : Text} (hcomponent : component <+: provides)
    (hle : last.length ≤ component.length) :
    provides.drop last.length =
      component.drop last.length ++ provides.drop component.length := by
  obtain ⟨rest, rfl⟩ := hcomponent
  rw [List.drop_append_of_le_length hle, List.drop_left]

/-- The code keeps the last component that matches. It is as good as the longest one exactly if
what the others have more is trimmed anyway. -/
theorem removesLongest_iff (modPath : Text) (m : Module) :
    RemovesLongest modPath m.provides (shortProvides modPath m) ↔
      ∀ last ∈ (prefixComponents modPath m.provides).getLast?,
        ∀ component ∈ prefixComponents modPath m.provides,
          ∀ c ∈ component.drop last.length, c ∈ "_-.".toList := by
  cases hlast : (prefixComponents modPath m.provides).getLast? with
  | none =>
    have hnil := List.getLast?_eq_none_iff.mp hlast
    refine iff_of_true ⟨fun _ => ?_, ?_⟩ (by simp)
    · rw [shortProvides_eq, hlast]
      rfl
    · simp [hnil]
  | some last =>
    have hmem : last ∈ prefixComponents modPath m.provides := List.mem_of_getLast? hlast
    have hshort : shortProvides modPath m =
        trimLeft "_-.".toList (m.provides.drop last.length) := by
      rw [shortProvides_eq, hlast]
      rfl
    have hsame : ∀ component ∈ prefixComponents modPath m.provides,
        last.length ≤ component.length →
          (shortProvides modPath m = trimLeft "_-.".toList (m.provides.drop component.length) ↔
            ∀ c ∈ component.drop last.length, c ∈ "_-.".toList) := by
      intro component hcomponent hle
      rw [hshort, drop_of_prefixes (isPrefix_of_mem_prefixComponents hcomponent) hle]
      exact trimLeft_append_iff
    simp only [Option.mem_def, Option.some.injEq, forall_eq']
    constructor
    · intro h component hcomponent c hc
      obtain ⟨longest, hlongest, hmax⟩ := exists_longest (List.ne_nil_of_mem hmem)
      have htrimmed : ∀ c ∈ longest.drop last.length, c ∈ "_-.".toList :=
        (hsame longest hlongest (hmax last hmem)).mp (h.removed longest hlongest hmax)
      -- A shorter component is the start of the longest one.
      have hstart : component <+: longest :=
        List.prefix_of_prefix_length_le (isPrefix_of_mem_prefixComponents hcomponent)
          (isPrefix_of_mem_prefixComponents hlongest) (hmax component hcomponent)
      exact htrimmed c ((hstart.drop last.length).subset hc)
    · intro h
      refine ⟨fun hnil => absurd hnil (List.ne_nil_of_mem hmem), ?_⟩
      intro longest hlongest hmax
      exact (hsame longest hlongest (hmax last hmem)).mpr (h longest hlongest)

/-- The path `ibox_foo/ibox` of a module `ibox_foo_bar`. -/
theorem not_removesLongest_ibox :
    ¬ RemovesLongest "system/ibox_foo/ibox".toList "ibox_foo_bar".toList
      (shortProvides "system/ibox_foo/ibox".toList
        { name := "bar".toList, provides := "ibox_foo_bar".toList }) := by
  intro h
  have hbar := h.removed "ibox_foo".toList (by decide) (by decide)
  exact absurd hbar (by decide)

end longest

/-- The files a directory owns are all files below it. -/
def Place.Owns (p : Place) (x : Text) : Prop := p.directory ++ ['/'] <+: x ++ ['/']

section placements
variable {p : Place × ModuleInstance} {s s' : ModuleInstance} {x : Text}

theorem sub_moduleShortPath (p : Place) (a b : Instance) : (p.sub a b).moduleShortPath =
    fileJoin p.moduleShortPath (shortProvides p.modulePath b.module) :=
  rfl

theorem directory_sub (hplain : Plain p.1.moduleShortPath) {a b : Instance}
    (hslash : '/' ∉ b.provides) (hne : shortProvides p.1.modulePath b.module ≠ []) :
    (p.1.sub a b).directory = p.1.directory ++ '/' :: shortProvides p.1.modulePath b.module := by
  have hname : '/' ∉ shortProvides p.1.modulePath b.module := slash_not_mem_shortProvides hslash
  rw [Place.directory, sub_moduleShortPath, rdropWhile_of_plain (plain_fileJoin hplain hname hne),
    fileJoin_of_plain hplain hname, Place.directory, rdropWhile_of_plain hplain]

theorem directory_sub_nil {a b : Instance} (hplain : p.1.moduleShortPath ≠ [])
    (hnil : shortProvides p.1.modulePath b.module = []) :
    (p.1.sub a b).directory = p.1.directory := by
  rw [Place.directory, sub_moduleShortPath, hnil, Place.directory]
  unfold fileJoin
  split
  · rename_i h
    simp [isAbsolutePath, hplain] at h
  · split
    · rw [List.append_nil]
    · rw [List.rdropWhile_concat_pos _ _ _ (by simp)]

/-- Short names that are not empty and distinct keep the directories of the submodules apart. -/
theorem separated_of_shortNames (hplain : Plain p.1.moduleShortPath)
    (hslash : ∀ s ∈ p.2.children, '/' ∉ s.label.provides)
    (hnames : [] ∉ shortNames p ∧ (shortNames p).Nodup) :
    RoseTree.Separated Place.sub Place.directory Place.Owns p := by
  have hne : ∀ s ∈ p.2.children, shortProvides p.1.modulePath s.label.module ≠ [] :=
    fun s hs he => hnames.1 (List.mem_map.mpr ⟨s, hs, he⟩)
  have hdir : ∀ s ∈ p.2.children, (p.1.sub p.2.label s.label).directory =
      p.1.directory ++ '/' :: shortProvides p.1.modulePath s.label.module :=
    fun s hs => directory_sub hplain (hslash s hs) (hne s hs)
  refine ⟨fun s hs x hx => ?_, fun s hs hx => ?_, ?_⟩
  · refine List.IsPrefix.trans ⟨shortProvides p.1.modulePath s.label.module ++ ['/'], ?_⟩ hx
    rw [hdir s hs]
    simp
  · have hlen := hx.length_le
    rw [hdir s hs] at hlen
    simp at hlen
  · refine (List.pairwise_map.mp hnames.2).imp_of_mem fun {s s'} hs hs' hdiff x hx hx' => hdiff ?_
    have hrest : ∀ t ∈ p.2.children, (p.1.sub p.2.label t.label).Owns x →
        ((x ++ ['/']).drop (p.1.directory.length + 1)).takeWhile (· ≠ '/') =
          shortProvides p.1.modulePath t.label.module := by
      intro t ht hown
      refine takeWhile_of_prefix (slash_not_mem_shortProvides (hslash t ht)) ?_
      obtain ⟨u, hu⟩ := hown
      refine ⟨u, ?_⟩
      rw [← hu, hdir t ht]
      simp [List.drop_append]
    rw [← hrest s hs hx, ← hrest s' hs' hx']

/-- No provides type is a path. -/
def SlashFree (t : ModuleInstance) : Prop :=
  ∀ p ∈ placements t, '/' ∉ p.2.label.provides

theorem slash_not_mem_of_child {t : ModuleInstance} (hslash : SlashFree t)
    (hp : p ∈ placements t) (hs : s ∈ p.2.children) : '/' ∉ s.label.provides :=
  hslash _ (RoseTree.sub_mem_down p hp s hs)

theorem fileJoin_ne_nil {dir name : Text} (hdir : dir ≠ []) : fileJoin dir name ≠ [] := by
  unfold fileJoin
  split
  · rename_i h
    rintro rfl
    simp [isAbsolutePath, hdir] at h
  · split <;> simp [hdir]

theorem moduleShortPath_ne_nil {t : ModuleInstance} (hp : p ∈ placements t) :
    p.1.moduleShortPath ≠ [] :=
  RoseTree.forall_attribute (fun q : Place => q.moduleShortPath ≠ []) (by decide)
    (fun _ _ hne _ _ => fileJoin_ne_nil hne) p hp

/-- The directories of a tree are distinct exactly if at every module the short names of the
submodules are not empty and distinct. -/
theorem directories_nodup_iff (t : ModuleInstance) (hslash : SlashFree t) :
    ((placements t).map fun p => p.1.directory).Nodup ↔
      ∀ p ∈ placements t, [] ∉ shortNames p ∧ (shortNames p).Nodup := by
  constructor
  · intro hnodup p hp
    have hchildren := RoseTree.nodup_children hnodup p hp
    rw [List.nodup_cons] at hchildren
    constructor
    · intro hmem
      obtain ⟨s, hs, hnil⟩ := List.mem_map.mp hmem
      refine hchildren.1 (List.mem_map.mpr ⟨s, hs, ?_⟩)
      exact directory_sub_nil (moduleShortPath_ne_nil hp) hnil
    · refine List.Nodup.of_map (fun name : Text =>
        (fileJoin p.1.moduleShortPath name).rdropWhile (· = '/')) ?_
      rw [shortNames, List.map_map]
      exact hchildren.2
  · intro hnames
    have hplain : ∀ p ∈ placements t, Plain p.1.moduleShortPath := by
      refine RoseTree.forall_attribute (fun q : Place => Plain q.moduleShortPath) ?_ ?_
      · simp [Plain, Place.root]
      · intro p hp hplain s hs
        refine plain_fileJoin hplain ?_ fun hnil => (hnames p hp).1 ?_
        · exact slash_not_mem_shortProvides (slash_not_mem_of_child hslash hp hs)
        · exact List.mem_map.mpr ⟨s, hs, hnil⟩
    refine RoseTree.nodup_keys Place.Owns (fun b => List.prefix_rfl) ?_
    intro p hp
    exact separated_of_shortNames (hplain p hp)
      (fun s hs => slash_not_mem_of_child hslash hp hs) (hnames p hp)

end placements

section examples

/-- A module instance of a type, with the submodules it requires. -/
def moduleTree (id : Nat) (provides : Text) (subs : List ModuleInstance) : ModuleInstance :=
  .node { id := id
          module := { name := provides, provides := provides,
                      requiresList := subs.map fun s => s.label.provides } } (subs.map some)

/-- A cache with its own queue beside the core. -/
def cacheModel : ModuleInstance :=
  moduleTree 0 "cpu".toList
    [moduleTree 1 "core".toList [],
     moduleTree 2 "cache".toList [moduleTree 3 "cache_queue".toList []]]

theorem directories_nodup_cacheModel :
    ((placements cacheModel).map fun p => p.1.directory).Nodup :=
  (directories_nodup_iff cacheModel (by unfold SlashFree; decide)).mpr (by decide)

/-- Two submodules of the root, one of them with the directory of the root in its name. -/
def clashingModel : ModuleInstance :=
  moduleTree 0 "cpu".toList [moduleTree 1 "system_core".toList [], moduleTree 2 "core".toList []]

/-- The short name drops what keeps the two apart. -/
theorem directories_not_nodup :
    ¬ ∀ t : ModuleInstance, t.isComplete →
      ((placements t).map fun p => p.2.label.provides).Nodup →
      ((placements t).map fun p => p.1.directory).Nodup := by
  intro h
  have hnodup := h clashingModel (by decide) (by decide)
  exact absurd hnodup (by decide)

end examples

end Awb
