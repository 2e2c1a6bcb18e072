import Awb.Lib.Splitting
import Awb.Workspace.References

/-! Where the two expansions of a search path agree. An element is text, references and option
groups; once its variables are substituted, it is a text with groups in it. -/

namespace Awb

variable {s : Text} {w : WorkspaceConfig} {globber : Globber}

/-- A text with groups: every group has its options in one string and is followed by text. -/
def render (first : Text) (groups : List (Text × Text)) : Text :=
  first ++ groups.flatMap fun (content, text) => '{' :: content ++ '}' :: text

/-- The paths of a text with groups; the options of the first group vary slowest. -/
def crossProduct (first : Text) : List (Text × Text) → List Text
  | [] => [first]
  | (content, text) :: groups =>
    (splitString [','] content).flatMap fun option => crossProduct (first ++ option ++ text) groups

theorem optionMatch_none (hs : '{' ∉ s) : optionMatch s = none := by
  have htake : s.takeWhile (· ≠ '{') = s :=
    List.takeWhile_eq_self_iff.mpr fun c hc => decide_eq_true fun h => hs (h ▸ hc)
  rw [optionMatch, htake, List.drop_length]

theorem crossMatch_none (hs : '{' ∉ s) : crossMatch s = none := by
  have htake : s.takeWhile (· ≠ '{') = s :=
    List.takeWhile_eq_self_iff.mpr fun c hc => decide_eq_true fun h => hs (h ▸ hc)
  rw [crossMatch, htake, List.drop_length]

/-- Cut at the first of a character. -/
theorem cut_first {front : Text} {c : Char} (back : Text) (hfront : c ∉ front) :
    (front ++ c :: back).takeWhile (· ≠ c) = front ∧
      (front ++ c :: back).dropWhile (· ≠ c) = c :: back := by
  have hpos : ∀ d ∈ front, decide (d ≠ c) = true := fun d hd =>
    decide_eq_true fun heq => hfront (heq ▸ hd)
  refine ⟨?_, ?_⟩
  · rw [List.takeWhile_append_of_pos hpos, List.takeWhile_cons_of_neg (by simp), List.append_nil]
  · rw [List.dropWhile_append_of_pos hpos, List.dropWhile_cons_of_neg (by simp)]

theorem optionMatch_render {first content after : Text} (hfirst : '{' ∉ first)
    (hcontent : '}' ∉ content) :
    optionMatch (first ++ '{' :: (content ++ '}' :: after)) = some (first, content, after) := by
  obtain ⟨htake, -⟩ := cut_first (content ++ '}' :: after) hfirst
  obtain ⟨htake', hdrop'⟩ := cut_first after hcontent
  rw [optionMatch, htake, List.drop_left]
  simp only
  rw [if_pos (by simp), htake', hdrop']
  rfl

/-- The greedy match reaches to the last group. -/
theorem crossMatch_render {first content after : Text} (hfirst : '{' ∉ first)
    (hafter : '}' ∉ after) :
    crossMatch (first ++ '{' :: (content ++ '}' :: after)) = some (first, content, after) := by
  obtain ⟨htake, -⟩ := cut_first (content ++ '}' :: after) hfirst
  have hpos : ∀ d ∈ after.reverse, decide (d ≠ '}') = true := fun d hd =>
    decide_eq_true fun heq => hafter (heq ▸ List.mem_reverse.mp hd)
  have hreverse : (content ++ '}' :: after).reverse = after.reverse ++ '}' :: content.reverse := by
    simp
  have hlast : (content ++ '}' :: after).rtakeWhile (· ≠ '}') = after := by
    rw [List.rtakeWhile, hreverse, List.takeWhile_append_of_pos hpos,
      List.takeWhile_cons_of_neg (by simp), List.append_nil, List.reverse_reverse]
  have hrest : (content ++ '}' :: after).rdropWhile (· ≠ '}') = content ++ ['}'] := by
    rw [List.rdropWhile, hreverse, List.dropWhile_append_of_pos hpos,
      List.dropWhile_cons_of_neg (by simp)]
    simp
  rw [crossMatch, htake, List.drop_left]
  simp only
  rw [if_pos (by simp), hlast, hrest, List.dropLast_concat]

/-- A character of plain text. -/
def isPlain (c : Char) : Bool := !("$\x7b\x7d*?".toList.contains c)

theorem mem_of_mem_splitString {part : Text} (h : part ∈ splitString [','] s) {c : Char}
    (hc : c ∈ part) : c ∈ s := by
  by_cases hs : s = []
  · subst hs
    cases h
  · by_cases hsingle : s = [',']
    · subst hsingle
      obtain rfl := List.mem_singleton.mp h
      cases hc
    · rw [splitString_eq hs hsingle] at h
      exact Splitting.mem_of_mem_splitOn h hc

variable {first : Text} {groups : List (Text × Text)}

/-- The paths are made of the characters of the element. -/
theorem crossProduct_plain (hfirst : ∀ c ∈ first, isPlain c = true)
    (hgroups : ∀ group ∈ groups, ∀ c ∈ group.1 ++ group.2, isPlain c = true) :
    ∀ path ∈ crossProduct first groups, ∀ c ∈ path, isPlain c = true := by
  induction groups generalizing first with
  | nil =>
    intro path hpath
    obtain rfl := List.mem_singleton.mp hpath
    exact hfirst
  | cons group groups ih =>
    obtain ⟨content, text⟩ := group
    have hgroup := hgroups _ List.mem_cons_self
    intro path hpath
    obtain ⟨option, hoption, hpath⟩ := List.mem_flatMap.mp hpath
    refine ih ?_ (fun g hg => hgroups g (List.mem_cons_of_mem _ hg)) path hpath
    intro c hc
    rcases List.mem_append.mp hc with hc | hc
    · rcases List.mem_append.mp hc with hc | hc
      · exact hfirst c hc
      · exact hgroup c (List.mem_append_left text (mem_of_mem_splitString hoption hc))
    · exact hgroup c (List.mem_append_right content hc)

/-! ### C++ -/

theorem isPlain_ne {c d : Char} (hc : isPlain c = true) (hd : isPlain d = false) : d ≠ c := by
  rintro rfl
  rw [hd] at hc
  cases hc

theorem notMem_of_plain {d : Char} (hs : ∀ c ∈ s, isPlain c = true) (hd : isPlain d = false) :
    d ∉ s := fun hmem => isPlain_ne (hs d hmem) hd rfl

theorem mapM_eq_map {α β : Type} {f : α → Option β} {g : α → β} {l : List α}
    (h : ∀ a ∈ l, f a = some (g a)) : l.mapM f = some (l.map g) := by
  induction l with
  | nil => rfl
  | cons a l ih =>
    rw [List.mapM_cons, h a List.mem_cons_self, ih fun b hb => h b (List.mem_cons_of_mem a hb)]
    rfl

/-- A relative path is below the directory of the workspace. -/
def absolute (rootDir path : Text) : Text :=
  if isAbsolutePath path then path else rootDir ++ '/' :: path

/-- The directory of the workspace is no pattern and has no brace that could be that of a group. -/
def PlainRoot (w : WorkspaceConfig) : Prop :=
  w.rootDir ≠ [] ∧ '*' ∉ w.rootDir ∧ '?' ∉ w.rootDir ∧ '}' ∉ w.rootDir

theorem finish_plain {baseDir : Text} {paths : List Text} (hbase : '*' ∉ baseDir ∧ '?' ∉ baseDir)
    (hpaths : ∀ path ∈ paths, (∀ c ∈ path, isPlain c = true) ∧ path.head? ≠ some '~') :
    WorkspaceConfig.finish globber baseDir paths =
      paths.map fun path => if baseDir ≠ [] then absolute baseDir path else path := by
  unfold WorkspaceConfig.finish
  rw [List.map_eq_flatMap]
  refine List.flatMap_congr fun path hpath => ?_
  obtain ⟨hplain, htilde⟩ := hpaths path hpath
  have hstar : '*' ∉ path := notMem_of_plain hplain (by decide)
  have hquestion : '?' ∉ path := notMem_of_plain hplain (by decide)
  have hexpand : WorkspaceConfig.expandTildeUser globber path = path := if_neg htilde
  have hpath' : (if baseDir ≠ [] && !isAbsolutePath path then baseDir ++ '/' :: path else path) =
      if baseDir ≠ [] then absolute baseDir path else path := by
    unfold absolute
    by_cases hempty : baseDir = [] <;> cases isAbsolutePath path <;> simp [hempty]
  have hglob : ¬ ((if baseDir ≠ [] then absolute baseDir path else path).any
      fun c => c = '*' || c = '?') = true := by
    intro hany
    obtain ⟨c, hc, hc'⟩ := List.any_eq_true.mp hany
    have hmem : c ∈ baseDir ∨ c = '/' ∨ c ∈ path := by
      unfold absolute at hc
      split_ifs at hc
      · exact Or.inr (Or.inr hc)
      · rwa [List.mem_append, List.mem_cons] at hc
      · exact Or.inr (Or.inr hc)
    rcases Bool.or_eq_true_iff.mp hc' with h | h
    · obtain rfl := of_decide_eq_true h
      rcases hmem with h | h | h
      · exact hbase.1 h
      · cases h
      · exact hstar h
    · obtain rfl := of_decide_eq_true h
      rcases hmem with h | h | h
      · exact hbase.2 h
      · cases h
      · exact hquestion h
  simp only [hexpand, hpath', if_neg hglob]

/-- A text without references is not changed. -/
theorem expandVars_plain (hs : '$' ∉ s) (fuel : Nat) : w.expandVars (fuel + 1) s = some s := by
  rw [WorkspaceConfig.expandVars, leftmostRef_none hs]

theorem render_cons (first content text : Text) (groups : List (Text × Text)) :
    render first ((content, text) :: groups) =
      first ++ '{' :: (content ++ '}' :: render text groups) := by
  simp [render]

theorem render_append (front first : Text) (groups : List (Text × Text)) :
    front ++ render first groups = render (front ++ first) groups := by
  simp [render]

/-- What there is to expand in a recursive call. -/
structure Rendered where
  first : Text
  groups : List (Text × Text)
  firstPlain : ∀ c ∈ first, isPlain c = true
  groupsPlain : ∀ group ∈ groups, ∀ c ∈ group.1 ++ group.2, isPlain c = true
  noUser : ∀ path ∈ crossProduct first groups, path.head? ≠ some '~'

def Rendered.text (r : Rendered) : Text := render r.first r.groups

def Rendered.paths (r : Rendered) : List Text := crossProduct r.first r.groups

/-- The first group replaced by one of its options. -/
def Rendered.option (r : Rendered) {content text : Text} {groups : List (Text × Text)}
    (hgroups : r.groups = (content, text) :: groups)
    (part : { part // part ∈ splitString [','] content }) : Rendered where
  first := r.first ++ part.val ++ text
  groups := groups
  firstPlain c hc := by
    have hgroup := r.groupsPlain (content, text) (hgroups ▸ List.mem_cons_self)
    rcases List.mem_append.mp hc with hc | hc
    · rcases List.mem_append.mp hc with hc | hc
      · exact r.firstPlain c hc
      · exact hgroup c (List.mem_append_left text (mem_of_mem_splitString part.property hc))
    · exact hgroup c (List.mem_append_right content hc)
  groupsPlain group hgroup := r.groupsPlain group (hgroups ▸ List.mem_cons_of_mem _ hgroup)
  noUser path hpath := by
    refine r.noUser path ?_
    rw [hgroups]
    exact List.mem_flatMap.mpr ⟨part.val, part.property, hpath⟩

theorem Rendered.dollar (r : Rendered) : '$' ∉ r.text := by
  intro hmem
  rcases List.mem_append.mp hmem with hmem | hmem
  · exact notMem_of_plain r.firstPlain (by decide) hmem
  · obtain ⟨group, hgroup, hmem⟩ := List.mem_flatMap.mp hmem
    have hplain := notMem_of_plain (r.groupsPlain group hgroup) (d := '$') (by decide)
    simp only [List.cons_append, List.mem_cons, List.mem_append, Char.reduceEq, false_or] at hmem
    exact hplain (List.mem_append.mpr hmem)

/-- One path, when the recursive call has a group less in each of its paths. -/
theorem round1_rendered {r : Rendered} {expand : List Text → Option (List Text)} {fuel : Nat}
    {path : Text} (hvars : w.expandVars fuel path = some r.text)
    (hexpand : ∀ items : List Rendered, (∀ r' ∈ items, r'.groups.length < r.groups.length) →
      expand (items.map Rendered.text) = some (items.flatMap Rendered.paths)) :
    w.round1 expand fuel path = some r.paths := by
  have hbrace : '{' ∉ r.first := notMem_of_plain r.firstPlain (by decide)
  cases hgroups : r.groups with
  | nil =>
    have htext : r.text = r.first := by
      rw [Rendered.text, hgroups, render, List.flatMap_nil, List.append_nil]
    have hpaths : r.paths = [r.first] := by
      rw [Rendered.paths, hgroups, crossProduct]
    rw [htext] at hvars
    simp only [WorkspaceConfig.round1, hvars, Option.bind_eq_bind, Option.bind_some,
      optionMatch_none hbrace, hpaths]
  | cons group groups =>
    obtain ⟨content, text⟩ := group
    have hcontent : '}' ∉ content := fun hmem =>
      notMem_of_plain (r.groupsPlain (content, text) (hgroups ▸ List.mem_cons_self)) (d := '}')
        (by decide) (List.mem_append_left text hmem)
    have htext : r.text = r.first ++ '{' :: (content ++ '}' :: render text groups) := by
      rw [Rendered.text, hgroups, render_cons]
    rw [htext] at hvars
    have hitems := hexpand ((splitString [','] content).attach.map (r.option hgroups)) (by
      intro r' hr'
      obtain ⟨part, -, rfl⟩ := List.mem_map.mp hr'
      exact Nat.lt_succ_self groups.length |>.trans_eq (by rw [hgroups]; rfl))
    have hmap : ((splitString [','] content).attach.map (r.option hgroups)).map Rendered.text =
        (splitString [','] content).map fun option => r.first ++ option ++ render text groups := by
      rw [List.map_map]
      conv_rhs => rw [← List.attach_map_subtype_val (splitString [','] content), List.map_map]
      refine List.map_congr_left fun part _ => ?_
      simp only [Function.comp, Rendered.text, Rendered.option]
      rw [render_append]
    have hpaths : ((splitString [','] content).attach.map (r.option hgroups)).flatMap
        Rendered.paths = r.paths := by
      rw [Rendered.paths, hgroups, crossProduct]
      conv_rhs => rw [← List.attach_map_subtype_val (splitString [','] content)]
      rw [List.flatMap_map, List.flatMap_map]
      rfl
    rw [hmap, hpaths] at hitems
    simp only [WorkspaceConfig.round1, hvars, Option.bind_eq_bind, Option.bind_some,
      optionMatch_render hbrace hcontent, hitems]

/-- One call, on paths whose variables give texts with groups. -/
theorem expandPath_succ {α : Type} {items : List α} {raw : α → Text} {r : α → Rendered} {fuel : Nat}
    {baseDir : Text} (hbase : '*' ∉ baseDir ∧ '?' ∉ baseDir)
    (hvars : ∀ a ∈ items, w.expandVars fuel (raw a) = some (r a).text)
    (hexpand : ∀ a ∈ items, ∀ items' : List Rendered,
      (∀ r' ∈ items', r'.groups.length < (r a).groups.length) →
      w.expandPath globber fuel (items'.map Rendered.text) [] =
        some (items'.flatMap Rendered.paths)) :
    w.expandPath globber (fuel + 1) (items.map raw) baseDir =
      some ((items.flatMap fun a => (r a).paths).map fun path =>
        if baseDir ≠ [] then absolute baseDir path else path) := by
  have hmap : (items.map raw).mapM (w.round1 (fun l => w.expandPath globber fuel l []) fuel) =
      some (items.map fun a => (r a).paths) := by
    rw [List.mapM_map]
    exact mapM_eq_map fun a ha => round1_rendered (hvars a ha) (hexpand a ha)
  have hplain : ∀ path ∈ (items.map fun a => (r a).paths).flatten,
      (∀ c ∈ path, isPlain c = true) ∧ path.head? ≠ some '~' := by
    intro path hpath
    obtain ⟨paths, hpaths, hpath⟩ := List.mem_flatten.mp hpath
    obtain ⟨a, -, rfl⟩ := List.mem_map.mp hpaths
    exact ⟨crossProduct_plain (r a).firstPlain (r a).groupsPlain path hpath,
      (r a).noUser path hpath⟩
  rw [WorkspaceConfig.expandPath, hmap]
  change some (WorkspaceConfig.finish globber baseDir (items.map fun a => (r a).paths).flatten) = _
  rw [finish_plain hbase hplain, List.flatMap]

/-- Every recursive call has one group less to expand. -/
theorem expandPath_rendered {fuel : Nat} {items : List Rendered} (hpos : 0 < fuel)
    (hfuel : ∀ r ∈ items, r.groups.length + 1 < fuel) :
    w.expandPath globber fuel (items.map Rendered.text) [] =
      some (items.flatMap Rendered.paths) := by
  induction fuel generalizing items with
  | zero => exact absurd hpos (Nat.lt_irrefl 0)
  | succ fuel ih =>
    have hvars : ∀ r ∈ items, w.expandVars fuel r.text = some (id r).text := by
      intro r hr
      have hlt := hfuel r hr
      obtain ⟨k, rfl⟩ : ∃ k, fuel = k + 1 := ⟨fuel - 1, by omega⟩
      exact expandVars_plain r.dollar k
    have hcall : w.expandPath globber (fuel + 1) (items.map Rendered.text) [] =
        some ((items.flatMap fun r => (id r).paths).map fun path =>
          if ([] : Text) ≠ [] then absolute [] path else path) := by
      have hempty : '*' ∉ ([] : Text) ∧ '?' ∉ ([] : Text) :=
        ⟨List.not_mem_nil, List.not_mem_nil⟩
      refine expandPath_succ hempty hvars fun r hr items' hitems' => ?_
      have hlt := hfuel r hr
      refine ih (by omega) fun r' hr' => ?_
      have hless : r'.groups.length < r.groups.length := hitems' r' hr'
      omega
    rw [hcall]
    simp

/-- An element of a search path in which variables and option groups are all there is. -/
structure Element (w : WorkspaceConfig) extends Rendered where
  pieces : List Piece
  ok : ∀ piece ∈ pieces, piece.Ok w
  rendered : valueOf w pieces = render first groups

/-- The element as it is in the configuration. -/
def Element.raw (element : Element w) : Text := rawOf element.pieces

/-- Enough for all loops and calls. -/
def fuelFor (elements : List (Element w)) : Nat :=
  (elements.map fun element => element.pieces.length + element.groups.length + 3).sum

theorem expandPath_elements {elements : List (Element w)} {fuel : Nat} (hroot : PlainRoot w)
    (hne : elements ≠ []) (hfuel : fuelFor elements ≤ fuel) :
    w.expandPath globber fuel (elements.map Element.raw) w.rootDir =
      some ((elements.flatMap fun element => element.paths).map (absolute w.rootDir)) := by
  have hle : ∀ element ∈ elements,
      element.pieces.length + element.groups.length + 3 ≤ fuel := fun element helement =>
    (List.single_le_sum (fun _ _ => Nat.zero_le _) _ (List.mem_map_of_mem helement)).trans hfuel
  obtain ⟨element, helement⟩ := List.exists_mem_of_ne_nil elements hne
  obtain ⟨k, rfl⟩ : ∃ k, fuel = k + 1 := ⟨fuel - 1, by have := hle element helement; omega⟩
  have hvars : ∀ element ∈ elements,
      w.expandVars k element.raw = some element.toRendered.text := by
    intro element helement
    have hlt := hle element helement
    rw [Element.raw, expandVars_pieces element.ok (by omega), element.rendered]
    rfl
  have hcall : w.expandPath globber (k + 1) (elements.map Element.raw) w.rootDir =
      some ((elements.flatMap fun element => element.paths).map fun path =>
        if w.rootDir ≠ [] then absolute w.rootDir path else path) := by
    refine expandPath_succ ⟨hroot.2.1, hroot.2.2.1⟩ hvars fun element helement items' hitems' => ?_
    have hlt := hle element helement
    refine expandPath_rendered (by omega) fun r' hr' => ?_
    have hless := hitems' r' hr'
    omega
  rw [hcall]
  simp only [hroot.1, ne_eq, not_false_eq_true, if_true]

/-! ### Perl -/

theorem rehashPath_elements {elements : List (Element w)} {fuel : Nat} (hne : elements ≠ [])
    (hfuel : fuelFor elements ≤ fuel) :
    w.rehashPath fuel (elements.map Element.raw) =
      some ((elements.flatMap fun element => expandCross [element.text]).map
        (absolute w.rootDir)) := by
  have hle : ∀ element ∈ elements,
      element.pieces.length + element.groups.length + 3 ≤ fuel := fun element helement =>
    (List.single_le_sum (fun _ _ => Nat.zero_le _) _ (List.mem_map_of_mem helement)).trans hfuel
  have hmap : (elements.map Element.raw).mapM (w.substitute fuel) =
      some (elements.map fun element => element.text) := by
    rw [List.mapM_map]
    refine mapM_eq_map fun element helement => ?_
    have hlt := hle element helement
    change w.substitute fuel (rawOf element.pieces) = some element.text
    rw [substitute_pieces element.ok (by omega), element.rendered]
    rfl
  have hempty : (elements.map Element.raw).isEmpty = false := by
    cases elements with
    | nil => exact absurd rfl hne
    | cons => rfl
  rw [WorkspaceConfig.rehashPath]
  simp only [hempty, Bool.false_eq_true, if_false]
  rw [hmap]
  change some _ = _
  rw [List.flatMap_map]
  rfl

/-- An element that both expand alike: at most one group, which ends in no empty option. -/
def Rendered.Agrees (r : Rendered) : Prop :=
  match r.groups with
  | [] => True
  | [(content, _)] => SplitsAlike ',' content
  | _ => False

/-- With one group at most, Perl begins as C++ does. -/
theorem expandCross_single {r : Rendered} (hgroups : r.groups.length ≤ 1) :
    expandCross [r.text] <+: r.paths ∧ (expandCross [r.text] = r.paths ↔ r.Agrees) := by
  have hbrace : '{' ∉ r.first := notMem_of_plain r.firstPlain (by decide)
  unfold Rendered.Agrees
  cases hlist : r.groups with
  | nil =>
    have htext : r.text = r.first := by
      rw [Rendered.text, hlist, render, List.flatMap_nil, List.append_nil]
    have hpaths : r.paths = [r.first] := by
      rw [Rendered.paths, hlist, crossProduct]
    have hcross : expandCross [r.text] = [r.first] := by
      simp only [expandCross, List.flatMap_singleton, htext, crossMatch_none hbrace]
    rw [hcross, hpaths]
    exact ⟨List.prefix_refl _, by simp⟩
  | cons group groups =>
    obtain ⟨content, text⟩ := group
    obtain rfl : groups = [] := by
      rw [hlist, List.length_cons] at hgroups
      exact List.eq_nil_of_length_eq_zero (by omega)
    have htext : r.text = r.first ++ '{' :: (content ++ '}' :: text) := by
      rw [Rendered.text, hlist, render_cons, render, List.flatMap_nil, List.append_nil]
    have hafter : '}' ∉ text := fun hmem =>
      notMem_of_plain (r.groupsPlain (content, text) (hlist ▸ List.mem_cons_self)) (d := '}')
        (by decide) (List.mem_append_right content hmem)
    have hpaths : r.paths = (splitString [','] content).map fun j => r.first ++ j ++ text := by
      rw [Rendered.paths, hlist, List.map_eq_flatMap]
      rfl
    have hinjective : Function.Injective fun j => r.first ++ j ++ text := by
      intro j k hjk
      exact List.append_cancel_left (List.append_cancel_right hjk)
    have hcross : expandCross [r.text] =
        (perlSplit ',' content).map fun j => r.first ++ j ++ text := by
      simp only [expandCross, List.flatMap_singleton, htext, crossMatch_render hbrace hafter]
    rw [hcross, hpaths]
    refine ⟨List.IsPrefix.map _ perlSplit_prefix, ?_⟩
    rw [List.map_inj_right fun _ _ h => hinjective h]
    exact perlSplit_eq_iff

theorem render_concat (first content text : Text) (groups : List (Text × Text)) :
    render first (groups ++ [(content, text)]) =
      render first groups ++ '{' :: (content ++ '}' :: text) := by
  simp [render]

theorem exists_mem_splitOn {separator c : Char} (hc : c ∈ s) (hne : c ≠ separator) :
    ∃ part ∈ s.splitOn separator, c ∈ part := by
  induction s with
  | nil => cases hc
  | cons d s ih =>
    rw [List.splitOn_cons_eq_if_modifyHead]
    split_ifs with hd
    · rcases List.mem_cons.mp hc with rfl | hc
      · exact absurd (eq_of_beq hd) hne
      · obtain ⟨part, hpart, hmem⟩ := ih hc
        exact ⟨part, List.mem_cons_of_mem _ hpart, hmem⟩
    · obtain ⟨q, qs, hq⟩ := List.exists_cons_of_ne_nil (List.splitOn_ne_nil separator s)
      rw [hq, List.modifyHead_cons]
      rw [hq] at ih
      rcases List.mem_cons.mp hc with rfl | hc
      · exact ⟨c :: q, List.mem_cons_self, List.mem_cons_self⟩
      · obtain ⟨part, hpart, hmem⟩ := ih hc
        rcases List.mem_cons.mp hpart with rfl | hpart
        · exact ⟨d :: part, List.mem_cons_self, List.mem_cons_of_mem d hmem⟩
        · exact ⟨part, List.mem_cons_of_mem _ hpart, hmem⟩

/-- Only empty parts are dropped. -/
theorem exists_part {separator c : Char} (hc : c ∈ s) (hne : c ≠ separator) :
    ∃ part ∈ perlSplit separator s, c ∈ part := by
  obtain ⟨part, hpart, hmem⟩ := exists_mem_splitOn hc hne
  refine ⟨part, ?_, hmem⟩
  have hsplit : perlSplit separator s ++ (s.splitOn separator).rtakeWhile List.isEmpty =
      s.splitOn separator := List.rdropWhile_append_rtakeWhile
  rw [← hsplit] at hpart
  rcases List.mem_append.mp hpart with hpart | hpart
  · exact hpart
  · have hempty := List.mem_rtakeWhile_imp hpart
    rw [List.isEmpty_iff.mp hempty] at hmem
    cases hmem

/-- With more groups, Perl takes them for one and leaves a brace. -/
theorem expandCross_several {r : Rendered} (hgroups : 2 ≤ r.groups.length) :
    ∃ path ∈ expandCross [r.text], '}' ∈ path := by
  have hbrace : '{' ∉ r.first := notMem_of_plain r.firstPlain (by decide)
  cases hlist : r.groups with
  | nil =>
    rw [hlist] at hgroups
    cases hgroups
  | cons group groups =>
    obtain ⟨content, text⟩ := group
    rcases List.eq_nil_or_concat groups with rfl | ⟨front, ⟨content', text'⟩, rfl⟩
    · rw [hlist] at hgroups
      exact absurd hgroups (by simp)
    · have hafter : '}' ∉ text' := fun hmem =>
        notMem_of_plain (r.groupsPlain (content', text') (by rw [hlist]; simp)) (d := '}')
          (by decide) (List.mem_append_right content' hmem)
      let joined := content ++ '}' :: (render text front ++ '{' :: content')
      have htext : r.text = r.first ++ '{' :: (joined ++ '}' :: text') := by
        rw [Rendered.text, hlist, List.concat_eq_append, render_cons, render_concat]
        simp [joined]
      have hjoined : '}' ∈ joined := List.mem_append_right content List.mem_cons_self
      obtain ⟨part, hpart, hmem⟩ := exists_part hjoined (by decide : '}' ≠ ',')
      refine ⟨r.first ++ part ++ text', ?_, ?_⟩
      · refine List.mem_flatMap.mpr ⟨r.text, List.mem_singleton_self _, ?_⟩
        rw [htext, crossMatch_render hbrace hafter]
        exact List.mem_map_of_mem hpart
      · exact List.mem_append_left text' (List.mem_append_right r.first hmem)

/-! ### Both -/

/-- Lists of blocks of which one begins the other are equal only block by block. -/
theorem flatMap_eq_iff_of_begins {α β : Type} {f g : α → List β} {l : List α}
    (h : ∀ a ∈ l, f a <+: g a) : l.flatMap f = l.flatMap g ↔ ∀ a ∈ l, f a = g a := by
  have hlength : ∀ l : List α, (∀ a ∈ l, f a <+: g a) →
      (l.flatMap f).length ≤ (l.flatMap g).length := by
    intro l hl
    rw [List.length_flatMap, List.length_flatMap]
    exact List.sum_le_sum fun a ha => (hl a ha).length_le
  constructor
  · intro heq
    induction l with
    | nil =>
      intro a ha
      cases ha
    | cons b l ih =>
      have hb := h b List.mem_cons_self
      have hrest : ∀ a ∈ l, f a <+: g a := fun a ha => h a (List.mem_cons_of_mem b ha)
      rw [List.flatMap_cons, List.flatMap_cons] at heq
      have hsum := congrArg List.length heq
      rw [List.length_append, List.length_append] at hsum
      have hlb := hb.length_le
      have hll := hlength l hrest
      have hfb : f b = g b := hb.eq_of_length (by omega)
      rw [hfb] at heq
      intro a ha
      rcases List.mem_cons.mp ha with rfl | ha
      · exact hfb
      · exact ih hrest (List.append_cancel_left heq) a ha
  · intro heq
    exact List.flatMap_congr heq

theorem absolute_begins {rootDir : Text} {paths paths' : List Text} (h : paths <+: paths') :
    paths.map (absolute rootDir) <+: paths'.map (absolute rootDir) ∧
      (paths.map (absolute rootDir) = paths'.map (absolute rootDir) ↔ paths = paths') := by
  refine ⟨h.map _, ?_, fun heq => by rw [heq]⟩
  intro heq
  have hlength := congrArg List.length heq
  rw [List.length_map, List.length_map] at hlength
  exact h.eq_of_length hlength

/-- A workspace with one variable. -/
def exampleConfig : WorkspaceConfig where
  vars name := if name = "shared".toList then some "/proj".toList else none
  searchPath := "$(shared)/\x7ba,b\x7d".toList
  rootDir := "/home/awb".toList

/-- `$(shared)/{a,b}`. -/
def exampleElement : Element exampleConfig where
  pieces := [.ref "shared".toList, .text "/\x7ba,b\x7d".toList]
  first := "/proj/".toList
  groups := [("a,b".toList, [])]
  firstPlain := List.all_eq_true.mp rfl
  groupsPlain group hgroup := by
    obtain rfl := List.mem_singleton.mp hgroup
    exact List.all_eq_true.mp rfl
  noUser path hpath := by
    have hpaths : path ∈ ["/proj/a".toList, "/proj/b".toList] := hpath
    rcases List.mem_cons.mp hpaths with rfl | hpaths
    · decide
    · obtain rfl := List.mem_singleton.mp hpaths
      decide
  ok piece hpiece := by
    rcases List.mem_cons.mp hpiece with rfl | hpiece
    · exact ⟨by decide, List.all_eq_true.mp rfl, "/proj".toList, rfl, by decide⟩
    · obtain rfl := List.mem_singleton.mp hpiece
      exact (by decide : '$' ∉ "/\x7ba,b\x7d".toList)
  rendered := rfl

end Awb
