import Awb.Workspace.CrossProducts

/-! The option groups of a single path. `Workspace::ExpandPath` multiplies them out in the order of
the options, but a group without text has no option at all, and a group with only a comma in it
has one. -/

namespace Awb
open WorkspaceConfig

variable {w : WorkspaceConfig} {globber : Globber} {first : Text} {groups : List (Text × Text)}

/-! ### Options -/

/-- The paths of a text with groups that have an option before, between and behind their commas. -/
def fullProduct (first : Text) : List (Text × Text) → List Text
  | [] => [first]
  | (content, text) :: groups =>
    (content.splitOn ',').flatMap fun option => fullProduct (first ++ option ++ text) groups

/-- The length of a product over the options of each group. -/
theorem length_product {product : Text → List (Text × Text) → List Text}
    {options : Text → List Text} (hnil : ∀ first, product first [] = [first])
    (hcons : ∀ first content text groups, product first ((content, text) :: groups) =
      (options content).flatMap fun option => product (first ++ option ++ text) groups)
    (first : Text) (groups : List (Text × Text)) :
    (product first groups).length = (groups.map fun group => (options group.1).length).prod := by
  induction groups generalizing first with
  | nil => rw [hnil, List.map_nil, List.prod_nil, List.length_singleton]
  | cons group groups ih =>
    obtain ⟨content, text⟩ := group
    rw [hcons, List.length_flatMap, List.map_congr_left fun option _ => ih _,
      List.map_const', List.sum_replicate, List.map_cons, List.prod_cons]
    rfl

theorem length_crossProduct (first : Text) (groups : List (Text × Text)) :
    (crossProduct first groups).length =
      (groups.map fun group => (splitString [','] group.1).length).prod :=
  length_product (fun _ => rfl) (fun _ _ _ _ => rfl) first groups

theorem length_fullProduct (first : Text) (groups : List (Text × Text)) :
    (fullProduct first groups).length =
      (groups.map fun group => (group.1.splitOn ',').length).prod :=
  @length_product fullProduct (List.splitOn ',') (fun _ => rfl) (fun _ _ _ _ => rfl) first groups

/-- Both corner cases of the splitter lose one option. -/
theorem length_splitString (content : Text) :
    (splitString [','] content).length ≤ (content.splitOn ',').length ∧
      ((splitString [','] content).length = (content.splitOn ',').length ↔
        content ≠ [] ∧ content ≠ [',']) := by
  by_cases hnil : content = []
  · subst hnil
    exact ⟨by decide, by decide⟩
  · by_cases hcomma : content = [',']
    · subst hcomma
      exact ⟨by decide, by decide⟩
    · rw [splitString_eq hnil hcomma]
      exact ⟨le_rfl, fun _ => ⟨hnil, hcomma⟩, fun _ => rfl⟩

/-- Factors that are at most as large as others have a product as large only if they are equal. -/
theorem forall_eq_of_prod_eq {α : Type} {f g : α → ℕ} {l : List α}
    (hle : ∀ a ∈ l, f a ≤ g a ∧ 0 < g a) (h : (l.map f).prod = (l.map g).prod) :
    ∀ a ∈ l, f a = g a := by
  have hbound : ∀ l : List α, (∀ a ∈ l, f a ≤ g a ∧ 0 < g a) →
      (l.map f).prod ≤ (l.map g).prod ∧ 0 < (l.map g).prod := by
    intro l hl
    induction l with
    | nil => exact ⟨le_rfl, Nat.one_pos⟩
    | cons a l ih =>
      obtain ⟨hprod, hpos⟩ := ih fun b hb => hl b (List.mem_cons_of_mem a hb)
      obtain ⟨ha, hapos⟩ := hl a List.mem_cons_self
      rw [List.map_cons, List.map_cons, List.prod_cons, List.prod_cons]
      exact ⟨Nat.mul_le_mul ha hprod, Nat.mul_pos hapos hpos⟩
  induction l with
  | nil => exact fun a ha => absurd ha List.not_mem_nil
  | cons a l ih =>
    have hrest := fun b hb => hle b (List.mem_cons_of_mem a hb)
    obtain ⟨hprod, hpos⟩ := hbound l hrest
    obtain ⟨ha, hapos⟩ := hle a List.mem_cons_self
    rw [List.map_cons, List.map_cons, List.prod_cons, List.prod_cons] at h
    have heq : f a = g a := by
      by_contra hne
      have hlt : f a * (l.map f).prod < g a * (l.map g).prod :=
        (Nat.mul_le_mul_left _ hprod).trans_lt (Nat.mul_lt_mul_of_pos_right (by omega) hpos)
      exact absurd h hlt.ne
    rw [heq] at h
    exact List.forall_mem_cons.mpr ⟨heq, ih hrest (Nat.eq_of_mul_eq_mul_left hapos h)⟩

/-- No option is lost exactly if no group is one of the corner cases. -/
theorem crossProduct_eq_fullProduct_iff : crossProduct first groups = fullProduct first groups ↔
    ∀ group ∈ groups, group.1 ≠ [] ∧ group.1 ≠ [','] := by
  constructor
  · intro h
    have hlength := congrArg List.length h
    rw [length_crossProduct, length_fullProduct] at hlength
    intro group hgroup
    refine (length_splitString group.1).2.mp (forall_eq_of_prod_eq (fun group' _ => ?_) hlength
      group hgroup)
    exact ⟨(length_splitString group'.1).1,
      List.length_pos_iff.mpr (List.splitOn_ne_nil ',' group'.1)⟩
  · intro h
    induction groups generalizing first with
    | nil => rfl
    | cons group groups ih =>
      obtain ⟨content, text⟩ := group
      obtain ⟨⟨hnil, hcomma⟩, hrest⟩ := List.forall_mem_cons.mp h
      rw [crossProduct, fullProduct, splitString_eq hnil hcomma]
      exact List.flatMap_congr fun option _ => ih hrest

/-! ### Paths with groups -/

/-- No group is in another one. -/
def NonNested : Text → List (Text × Text) → Prop
  | first, [] => optionMatch first = none
  | first, (content, text) :: groups =>
    '{' ∉ first ∧ '{' ∉ content ∧ '}' ∉ content ∧ NonNested text groups

/-- A character without a meaning outside of groups. -/
def isBare (c : Char) : Bool := !("$~*?".toList.contains c)

theorem optionMatch_append {front : Text} (hfront : '{' ∉ front) (s : Text) :
    optionMatch (front ++ s) = (optionMatch s).map fun found => (front ++ found.1, found.2) := by
  have hpos : ∀ d ∈ front, decide (d ≠ '{') = true := fun d hd =>
    decide_eq_true fun heq => hfront (heq ▸ hd)
  rw [optionMatch, optionMatch, List.takeWhile_append_of_pos hpos]
  simp only [List.length_append, List.drop_append, List.drop_eq_nil_of_le (Nat.le_add_right ..),
    List.nil_append, Nat.add_sub_cancel_left]
  split
  next => split <;> rfl
  next => rfl

theorem NonNested.option {content text option : Text}
    (h : NonNested first ((content, text) :: groups))
    (hoption : option ∈ splitString [','] content) :
    NonNested (first ++ option ++ text) groups := by
  obtain ⟨hfirst, hcontent, -, htext⟩ := h
  have hfront : '{' ∉ first ++ option := by
    rw [List.mem_append]
    exact not_or.mpr ⟨hfirst, fun hmem => hcontent (mem_of_mem_splitString hoption hmem)⟩
  cases groups with
  | nil =>
    rw [NonNested] at htext ⊢
    rw [optionMatch_append hfront, htext, Option.map_none]
  | cons group groups =>
    obtain ⟨content', text'⟩ := group
    obtain ⟨htext, hrest⟩ := htext
    refine ⟨?_, hrest⟩
    rw [List.mem_append]
    exact not_or.mpr ⟨hfront, htext⟩

theorem mem_render_option {content text option : Text} {c : Char}
    (hoption : option ∈ splitString [','] content)
    (hc : c ∈ render (first ++ option ++ text) groups) :
    c ∈ render first ((content, text) :: groups) := by
  rw [render_cons]
  rw [List.append_assoc, ← render_append, ← render_append] at hc
  rcases List.mem_append.mp hc with hc | hc
  · exact List.mem_append_left _ hc
  · refine List.mem_append_right _ (List.mem_cons_of_mem _ ?_)
    rcases List.mem_append.mp hc with hc | hc
    · exact List.mem_append_left _ (mem_of_mem_splitString hoption hc)
    · exact List.mem_append_right _ (List.mem_cons_of_mem _ hc)

/-- The paths are made of the characters of the text. -/
theorem mem_render_of_mem {path : Text} {c : Char} (hpath : path ∈ crossProduct first groups)
    (hc : c ∈ path) : c ∈ render first groups := by
  induction groups generalizing first with
  | nil =>
    obtain rfl := List.mem_singleton.mp hpath
    exact List.mem_append_left _ hc
  | cons group groups ih =>
    obtain ⟨content, text⟩ := group
    obtain ⟨option, hoption, hpath⟩ := List.mem_flatMap.mp hpath
    exact mem_render_option hoption (ih hpath)

/-! ### Expansion -/

/-- What a path becomes in rounds 2 and 3. -/
def based (globber : Globber) (baseDir path : Text) : List Text :=
  if baseDir = [] ∨ isAbsolutePath path = true then [path]
  else if baseDir.any fun c => c = '*' || c = '?' then globber.directories (baseDir ++ '/' :: path)
  else [baseDir ++ '/' :: path]

theorem finish_bare {baseDir : Text} {paths : List Text}
    (hpaths : ∀ path ∈ paths, ∀ c ∈ path, isBare c = true) :
    finish globber baseDir paths = paths.flatMap (based globber baseDir) := by
  refine List.flatMap_congr fun path hpath => ?_
  have hbare := hpaths path hpath
  have htilde : expandTildeUser globber path = path := by
    refine if_neg fun h => ?_
    exact absurd (hbare '~' (List.mem_of_mem_head? h)) (by decide)
  have hpattern : (path.any fun c => c = '*' || c = '?') = false := by
    refine List.any_eq_false.mpr fun c hc hpattern => ?_
    have hne := hbare c hc
    rcases Bool.or_eq_true_iff.mp hpattern with h | h
    all_goals
      rw [of_decide_eq_true h] at hne
      exact absurd hne (by decide)
  simp only [htilde, based]
  by_cases hbase : baseDir = []
  · simp [hbase, hpattern]
  · cases habs : isAbsolutePath path with
    | true => simp [hpattern]
    | false => simp [hbase, hpattern]

/-- Every recursive call has one group less to expand. -/
theorem expandPath_nonNested {fuel : ℕ} {items : List (Text × List (Text × Text))} {baseDir : Text}
    (hpos : 0 < fuel) (hfuel : ∀ item ∈ items, item.2.length + 1 < fuel)
    (hnested : ∀ item ∈ items, NonNested item.1 item.2)
    (hbare : ∀ item ∈ items, ∀ c ∈ render item.1 item.2, isBare c = true) :
    w.expandPath globber fuel (items.map fun item => render item.1 item.2) baseDir =
      some ((items.flatMap fun item => crossProduct item.1 item.2).flatMap
        (based globber baseDir)) := by
  induction fuel generalizing items baseDir with
  | zero => exact absurd hpos (Nat.lt_irrefl 0)
  | succ fuel ih =>
    have hround : ∀ item ∈ items,
        w.round1 (fun l => w.expandPath globber fuel l []) fuel (render item.1 item.2) =
          some (crossProduct item.1 item.2) := by
      rintro ⟨first, groups⟩ hitem
      have hlt := hfuel _ hitem
      have hitemNested := hnested _ hitem
      have hitemBare := hbare _ hitem
      simp only at hlt hitemNested hitemBare ⊢
      obtain ⟨k, rfl⟩ : ∃ k, fuel = k + 1 := ⟨fuel - 1, by omega⟩
      have hdollar : '$' ∉ render first groups := fun h =>
        absurd (hitemBare '$' h) (by decide)
      simp only [round1, expandVars_plain hdollar, Option.bind_eq_bind, Option.bind_some]
      cases groups with
      | nil =>
        rw [render, List.flatMap_nil, List.append_nil, hitemNested]
        rfl
      | cons group groups =>
        obtain ⟨content, text⟩ := group
        obtain ⟨hfirst, -, hcontent, -⟩ := id hitemNested
        -- the items of the recursive call have one group less and nothing left for rounds 2 and 3
        have hcall : w.expandPath globber (k + 1)
            (((splitString [','] content).map fun option => (first ++ option ++ text, groups)).map
              fun item => render item.1 item.2) [] = _ := ih (by omega) ?_ ?_ ?_
        · rw [render_cons, optionMatch_render hfirst hcontent]
          simp only
          rw [List.map_map, List.flatMap_map] at hcall
          have hmap : ((fun item : Text × List (Text × Text) => render item.1 item.2) ∘
              fun option => (first ++ option ++ text, groups)) =
                fun option => first ++ option ++ render text groups := by
            funext option
            exact (render_append (first ++ option) text groups).symm
          rw [hmap] at hcall
          rw [hcall, crossProduct]
          refine congrArg some ?_
          exact List.flatMap_singleton' _
        all_goals
          intro item hitem
          obtain ⟨option, hoption, rfl⟩ := List.mem_map.mp hitem
        · rw [List.length_cons] at hlt
          exact Nat.lt_of_succ_lt_succ hlt
        · exact hitemNested.option hoption
        · exact fun c hc => hitemBare c (mem_render_option hoption hc)
    have hmap : (items.map fun item => render item.1 item.2).mapM
        (w.round1 (fun l => w.expandPath globber fuel l []) fuel) =
          some (items.map fun item => crossProduct item.1 item.2) := by
      rw [List.mapM_map]
      exact mapM_eq_map hround
    rw [WorkspaceConfig.expandPath, hmap]
    change some (finish globber baseDir (items.map _).flatten) = _
    rw [finish_bare, List.flatMap_def (l := items)]
    intro path hpath c hc
    obtain ⟨paths, hpaths, hpath⟩ := List.mem_flatten.mp hpath
    obtain ⟨item, hitem, rfl⟩ := List.mem_map.mp hpaths
    exact hbare item hitem c (mem_render_of_mem hpath hc)

/-- A path gives the products of the options of its groups, the first group varying slowest. They
are all there unless a group has no text or only a comma, which has then no option or one; relative
ones are prefixed with the base directory once. -/
theorem expandPath_groups (w : WorkspaceConfig) (globber : Globber)
    (hnested : NonNested first groups) (hbare : ∀ c ∈ render first groups, isBare c = true) :
    (∀ baseDir, ∀ fuel ≥ groups.length + 2,
      w.expandPath globber fuel [render first groups] baseDir =
        some ((crossProduct first groups).flatMap (based globber baseDir))) ∧
    (∀ fuel ≥ groups.length + 2, w.expandPath globber fuel [render first groups] [] =
      some (crossProduct first groups)) ∧
    (crossProduct first groups).length =
      (groups.map fun group => (splitString [','] group.1).length).prod ∧
    (∀ group ∈ groups, splitString [','] group.1 =
      if group.1 = [] then [] else if group.1 = [','] then [[]] else group.1.splitOn ',') ∧
    (crossProduct first groups = fullProduct first groups ↔
      ∀ group ∈ groups, group.1 ≠ [] ∧ group.1 ≠ [',']) := by
  have hexpand : ∀ baseDir, ∀ fuel ≥ groups.length + 2,
      w.expandPath globber fuel [render first groups] baseDir =
        some ((crossProduct first groups).flatMap (based globber baseDir)) := by
    intro baseDir fuel hfuel
    have hitem : w.expandPath globber fuel
        ([(first, groups)].map fun item => render item.1 item.2) baseDir = _ :=
      expandPath_nonNested (by omega) (by simpa using Nat.lt_of_succ_le hfuel)
        (by simpa using hnested) (by simpa using hbare)
    rwa [List.map_singleton, List.flatMap_singleton] at hitem
  refine ⟨hexpand, fun fuel hfuel => ?_, length_crossProduct first groups, fun group _ => ?_,
    crossProduct_eq_fullProduct_iff⟩
  · rw [hexpand [] fuel hfuel]
    exact congrArg some (List.flatMap_singleton' _)
  · split_ifs with hnil hcomma
    · rw [hnil]
      rfl
    · rw [hcomma]
      rfl
    · exact splitString_eq hnil hcomma

theorem expandPath_groups_two : exampleConfig.expandPath ⟨fun _ => none, fun _ => []⟩ 4
    ["lib/\x7ba,\x7d\x7bb,c\x7d".toList] "/home".toList =
      some ["/home/lib/ab".toList, "/home/lib/ac".toList, "/home/lib/b".toList,
        "/home/lib/c".toList] := by
  have hgroups := @expandPath_groups "lib/".toList [("a,".toList, []), ("b,c".toList, [])]
    exampleConfig ⟨fun _ => none, fun _ => []⟩
    ⟨by decide, by decide, by decide, by decide, by decide, by decide, rfl⟩
    (List.all_eq_true.mp rfl)
  exact hgroups.1 "/home".toList 4 le_rfl

/-- Both corner cases lose a path, and behind a pattern a path is replaced by what matches. -/
theorem not_expandPath_groups :
    exampleConfig.expandPath ⟨fun _ => none, fun _ => []⟩ 3 ["\x7b\x7d".toList] [] ≠
      some (fullProduct [] [([], [])]) ∧
    exampleConfig.expandPath ⟨fun _ => none, fun _ => []⟩ 3 ["\x7b,\x7d".toList] [] ≠
      some (fullProduct [] [([','], [])]) ∧
    exampleConfig.expandPath ⟨fun _ => none, fun _ => []⟩ 2 ["lib".toList] ['*'] ≠
      some ["*/lib".toList] := by decide

end Awb
