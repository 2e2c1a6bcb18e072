import Awb.SearchPath.Regex
import Mathlib.Tactic

/-! `UnionDir::glob` collects the files that match under the directories of a search path. The name
of a directory is taken out of a file's name as a regular expression, and a file is left out if its
name, as a regular expression, matches one that was found before. -/

namespace Awb.SearchPath

/-- `grep(/^$f$/, @ans)`, as a condition. -/
def grepWhole (rx : PerlRegex) (f : Text) : List Text → Except Text Bool
  | [] => .ok false
  | a :: ans =>
    match rx.whole f a with
    | .error message => .error message
    | .ok found => (grepWhole rx f ans).map (found || ·)

/-- A file is pushed unless it is found among the answers. -/
def pushNew (rx : PerlRegex) (ans : List Text) (f : Text) : Except Text (List Text) :=
  match grepWhole rx f ans with
  | .error message => .error message
  | .ok found => .ok (if found then ans else ans ++ [f])

/-- A file that was found under a directory. -/
def globFile (rx : PerlRegex) (p : Text) (ans : List Text) (f : Text) : Except Text (List Text) :=
  match rx.remove p f with
  | .error message => .error message
  | .ok f => pushNew rx ans f

/-- `glob`, with what `CORE::glob` answers. -/
def glob (rx : PerlRegex) (coreGlob : Text → List Text) (path : List Text) (pattern : Text) :
    Except Text (List Text) :=
  path.foldlM (fun ans p => (coreGlob (p ++ '/' :: pattern)).foldlM (globFile rx p) ans) []

/-- The relative names under the directories, in order and with repetitions. -/
def allNames (under : Text → List Text) (path : List Text) : List Text := path.flatMap under

/-- `CORE::glob` finds the matching files under each directory, which it writes before them, and the
substitution takes the directory out. -/
structure Relative (rx : PerlRegex) (coreGlob : Text → List Text) (under : Text → List Text)
    (path : List Text) (pattern : Text) : Prop where
  finds : ∀ p ∈ path, coreGlob (p ++ '/' :: pattern) = (under p).map (p ++ '/' :: ·)
  removes : ∀ p ∈ path, ∀ f ∈ under p, rx.remove p (p ++ '/' :: f) = .ok f

/-- A name, as a regular expression, matches one of the names before it exactly if it is one. -/
def SeenBefore (rx : PerlRegex) (before : List Text) (f : Text) : Prop :=
  (∀ a ∈ before, ∃ found, rx.whole f a = .ok found) ∧
    (f ∈ before ↔ ∃ a ∈ before, rx.whole f a = .ok true)

variable {rx : PerlRegex} {coreGlob under : Text → List Text} {path ans before names : List Text}
  {pattern f p : Text}

theorem eraseDups_concat (l : List Text) (f : Text) :
    (l ++ [f]).eraseDups = if f ∈ l then l.eraseDups else l.eraseDups ++ [f] := by
  rw [List.eraseDups_append]
  split_ifs with h
  · simp [List.removeAll, h]
  · simp [List.removeAll, h, List.eraseDups_cons]

theorem nodup_eraseDups (l : List Text) : l.eraseDups.Nodup := by
  induction l using List.reverseRecOn with
  | nil => exact List.nodup_nil
  | append_singleton l f ih =>
    rw [eraseDups_concat]
    split_ifs with h
    · exact ih
    · rw [← List.concat_eq_append]
      exact ih.concat fun hmem => h (List.mem_eraseDups.mp hmem)

theorem grepWhole_eq_ok_iff {found : Bool} : grepWhole rx f ans = .ok found ↔
    (∀ a ∈ ans, ∃ found, rx.whole f a = .ok found) ∧
      (found = true ↔ ∃ a ∈ ans, rx.whole f a = .ok true) := by
  induction ans generalizing found with
  | nil => cases found <;> simp [grepWhole]
  | cons a ans ih =>
    rw [grepWhole]
    cases ha : rx.whole f a with
    | error message =>
      constructor
      · intro h
        cases h
      · rintro ⟨hall, -⟩
        obtain ⟨b, hb⟩ := hall a List.mem_cons_self
        rw [ha] at hb
        cases hb
    | ok first =>
      have hcons : (∃ x ∈ a :: ans, rx.whole f x = .ok true) ↔
          first = true ∨ ∃ x ∈ ans, rx.whole f x = .ok true := by
        rw [List.exists_mem_cons_iff, ha, Except.ok.injEq]
      rw [hcons, List.forall_mem_cons]
      constructor
      · intro h
        cases hrest : grepWhole rx f ans with
        | error message =>
          rw [hrest] at h
          cases h
        | ok rest =>
          rw [hrest] at h
          obtain rfl := Except.ok.inj h
          obtain ⟨hall, hiff⟩ := ih.mp hrest
          exact ⟨⟨⟨first, ha⟩, hall⟩, by rw [Bool.or_eq_true, hiff]⟩
      · rintro ⟨⟨-, hall⟩, hiff⟩
        classical
        have hrest : grepWhole rx f ans =
            .ok (decide (∃ x ∈ ans, rx.whole f x = .ok true)) :=
          ih.mpr ⟨hall, decide_eq_true_iff⟩
        rw [hrest]
        refine congrArg Except.ok (Bool.eq_iff_iff.mpr ?_)
        rw [hiff, Bool.or_eq_true, decide_eq_true_iff]

/-! ### The names that are kept -/

theorem seenBefore_eraseDups :
    SeenBefore rx before.eraseDups f ↔ SeenBefore rx before f := by
  simp only [SeenBefore, List.mem_eraseDups]

/-- A name is treated right behind others that were treated right. -/
theorem pushNew_eraseDups : pushNew rx before.eraseDups f = .ok (before ++ [f]).eraseDups ↔
    SeenBefore rx before f := by
  rw [← seenBefore_eraseDups, SeenBefore, eraseDups_concat, List.mem_eraseDups, pushNew]
  cases hgrep : grepWhole rx f before.eraseDups with
  | error message =>
    constructor
    · intro h
      cases h
    · rintro ⟨hall, -⟩
      classical
      have hok := grepWhole_eq_ok_iff.mpr ⟨hall, decide_eq_true_iff⟩
      rw [hgrep] at hok
      cases hok
  | ok found =>
    obtain ⟨hall, hiff⟩ := grepWhole_eq_ok_iff.mp hgrep
    rw [← hiff, Except.ok.injEq]
    have hne : before.eraseDups ≠ before.eraseDups ++ [f] := by simp
    constructor
    · intro h
      refine ⟨hall, ?_⟩
      cases found with
      | true =>
        by_contra hnot
        rw [if_pos rfl, if_neg (by simpa using hnot)] at h
        exact hne h
      | false =>
        by_contra hnot
        rw [if_neg Bool.false_ne_true, if_pos (by simpa using hnot)] at h
        exact hne h.symm
    · rintro ⟨-, hmem⟩
      simp only [hmem]

theorem pushNew_cases (h : pushNew rx before f = .ok ans) :
    (ans = before ∧ ∃ a ∈ before, rx.whole f a = .ok true) ∨
      (ans = before ++ [f] ∧ ¬ ∃ a ∈ before, rx.whole f a = .ok true) := by
  unfold pushNew at h
  split at h
  · cases h
  · rename_i found hgrep
    obtain ⟨-, hiff⟩ := grepWhole_eq_ok_iff.mp hgrep
    obtain rfl := Except.ok.inj h
    cases found with
    | true => exact .inl ⟨rfl, hiff.mp rfl⟩
    | false => exact .inr ⟨rfl, fun hex => Bool.false_ne_true (hiff.mpr hex)⟩

theorem foldlM_concat : (names ++ [f]).foldlM (pushNew rx) [] = .ok ans ↔
    ∃ before, names.foldlM (pushNew rx) [] = .ok before ∧ pushNew rx before f = .ok ans := by
  rw [List.foldlM_append]
  cases hnames : names.foldlM (pushNew rx) [] with
  | error message =>
    constructor
    · intro h
      cases h
    · rintro ⟨before, h, -⟩
      cases h
  | ok before =>
    have hone : [f].foldlM (pushNew rx) before = pushNew rx before f := by
      rw [List.foldlM_cons]
      cases pushNew rx before f <;> rfl
    change [f].foldlM (pushNew rx) before = _ ↔ _
    rw [hone]
    exact ⟨fun h => ⟨before, rfl, h⟩, fun ⟨_, hbefore, h⟩ => Except.ok.inj hbefore ▸ h⟩

/-- The answers are among the names, and every name is one of them or matches one. -/
theorem foldlM_pushNew_spec (h : names.foldlM (pushNew rx) [] = .ok ans) :
    (∀ a ∈ ans, a ∈ names) ∧ ∀ f ∈ names, f ∈ ans ∨ ∃ a ∈ ans, rx.whole f a = .ok true := by
  induction names using List.reverseRecOn generalizing ans with
  | nil =>
    obtain rfl := Except.ok.inj h
    exact ⟨fun _ ha => ha, fun _ hf => .inl hf⟩
  | append_singleton names f ih =>
    obtain ⟨before, hbefore, hpush⟩ := foldlM_concat.mp h
    obtain ⟨hmem, hseen⟩ := ih hbefore
    obtain ⟨rfl, a, ha, hwhole⟩ | ⟨rfl, -⟩ := pushNew_cases hpush
    · refine ⟨fun a ha => List.mem_append_left _ (hmem a ha), fun g hg => ?_⟩
      rcases List.mem_append.mp hg with hg | hg
      · exact hseen g hg
      · exact .inr ⟨a, ha, List.mem_singleton.mp hg ▸ hwhole⟩
    · refine ⟨fun a ha => ?_, fun g hg => ?_⟩
      · exact (List.mem_append.mp ha).elim (fun ha => List.mem_append_left _ (hmem a ha))
          (List.mem_append_right _)
      · rcases List.mem_append.mp hg with hg | hg
        · rcases hseen g hg with hg | ⟨a, ha, hwhole⟩
          · exact .inl (List.mem_append_left _ hg)
          · exact .inr ⟨a, List.mem_append_left _ ha, hwhole⟩
        · exact .inl (List.mem_append_right _ hg)

/-- What is right in the end was right before the last name. -/
theorem foldlM_eraseDups_of_concat
    (h : (names ++ [f]).foldlM (pushNew rx) [] = .ok (names ++ [f]).eraseDups) :
    names.foldlM (pushNew rx) [] = .ok names.eraseDups ∧ SeenBefore rx names f := by
  obtain ⟨before, hbefore, hpush⟩ := foldlM_concat.mp h
  obtain ⟨hmem, hseen⟩ := foldlM_pushNew_spec hbefore
  have hright : before = names.eraseDups := by
    rw [eraseDups_concat] at hpush
    obtain ⟨heq, -⟩ | ⟨heq, hnone⟩ := pushNew_cases hpush
    · split_ifs at heq with hf
      · exact heq.symm
      · exact absurd (hmem f (heq ▸ List.mem_append_right _ (List.mem_singleton_self f))) hf
    · split_ifs at heq with hf
      · rcases hseen f hf with hin | hmatch
        · have hnodup := nodup_eraseDups names
          rw [heq] at hnodup
          exact absurd (List.mem_singleton_self f) (List.disjoint_of_nodup_append hnodup hin)
        · exact absurd hmatch hnone
      · exact (List.append_cancel_right heq).symm
  rw [hright] at hbefore hpush
  exact ⟨hbefore, pushNew_eraseDups.mp hpush⟩

theorem foldlM_eraseDups_iff : names.foldlM (pushNew rx) [] = .ok names.eraseDups ↔
    ∀ before f after, names = before ++ f :: after → SeenBefore rx before f := by
  induction names using List.reverseRecOn with
  | nil =>
    refine ⟨fun _ before f after h => ?_, fun _ => rfl⟩
    cases before <;> cases h
  | append_singleton names f ih =>
    constructor
    · intro h before g after hsplit
      obtain ⟨hnames, hf⟩ := foldlM_eraseDups_of_concat h
      rcases List.eq_nil_or_concat' after with rfl | ⟨after, last, rfl⟩
      · obtain ⟨rfl, hg⟩ := List.append_inj' hsplit rfl
        exact (List.cons.inj hg).1 ▸ hf
      · rw [← List.cons_append, ← List.append_assoc] at hsplit
        exact ih.mp hnames before g after (List.append_inj' hsplit rfl).1
    · intro h
      have hnames := ih.mpr fun before g after hsplit =>
        h before g (after ++ [f]) (by rw [hsplit, List.append_assoc]; rfl)
      exact foldlM_concat.mpr ⟨_, hnames, pushNew_eraseDups.mpr (h names f [] rfl)⟩

/-! ### The names of directories -/

theorem foldlM_globFile (hremoves : ∀ f ∈ names, rx.remove p (p ++ '/' :: f) = .ok f)
    (ans : List Text) :
    (names.map (p ++ '/' :: ·)).foldlM (globFile rx p) ans = names.foldlM (pushNew rx) ans := by
  induction names generalizing ans with
  | nil => rfl
  | cons f names ih =>
    obtain ⟨hf, hnames⟩ := List.forall_mem_cons.mp hremoves
    have hone : globFile rx p ans (p ++ '/' :: f) = pushNew rx ans f := by rw [globFile, hf]
    rw [List.map_cons, List.foldlM_cons, List.foldlM_cons, hone]
    cases pushNew rx ans f with
    | error message => rfl
    | ok next => exact ih hnames next

theorem glob_eq (hrelative : Relative rx coreGlob under path pattern) :
    glob rx coreGlob path pattern = (allNames under path).foldlM (pushNew rx) [] := by
  obtain ⟨hfinds, hremoves⟩ := hrelative
  unfold glob allNames
  generalize ([] : List Text) = ans
  induction path generalizing ans with
  | nil => rfl
  | cons p path ih =>
    obtain ⟨hp, hfinds⟩ := List.forall_mem_cons.mp hfinds
    obtain ⟨hpRemoves, hremoves⟩ := List.forall_mem_cons.mp hremoves
    rw [List.foldlM_cons, List.flatMap_cons, List.foldlM_append, hp, foldlM_globFile hpRemoves]
    cases (under p).foldlM (pushNew rx) ans with
    | error message => rfl
    | ok next => exact ih hfinds hremoves next

/-- The directory in front of a name is the first place where a plain directory is found. -/
theorem remove_plain (hp : Plain p) (f : Text) : rx.remove p (p ++ '/' :: f) = .ok f := by
  have hstart : (p ++ ['/']).isPrefixOf (p ++ '/' :: f) = true :=
    List.isPrefixOf_iff_prefix.mpr ⟨f, by simp⟩
  have hcut : Substitution.cutAt (p ++ ['/']) (p ++ '/' :: f) = some ([], f) := by
    have hfirst : Substitution.cutAt (p ++ ['/']) ([] ++ (p ++ ['/']) ++ f) = some ([], f) :=
      Substitution.cutAt_of_first fun front back _ => Nat.zero_le _
    rwa [List.nil_append, List.append_assoc] at hfirst
  rw [rx.remove_plain p _ hp, Substitution.substituteFirst, hcut]
  rfl

/-- Plain names without line ends match only themselves. -/
theorem seenBefore_plain (hf : Plain f) (hline : ∀ a ∈ before, '\n' ∉ a) :
    SeenBefore rx before f := by
  refine ⟨fun a _ => ⟨_, rx.whole_plain f a hf⟩, fun h => ⟨f, h, ?_⟩, ?_⟩
  · rw [rx.whole_plain f f hf, decide_eq_true rfl, Bool.true_or]
  · rintro ⟨a, ha, hwhole⟩
    rw [rx.whole_plain f a hf, Except.ok.injEq, Bool.or_eq_true, decide_eq_true_eq,
      decide_eq_true_eq] at hwhole
    rcases hwhole with rfl | rfl
    · exact ha
    · exact absurd (List.mem_append_right f (List.mem_singleton_self _)) (hline _ ha)

/-- Plain names of directories and files are returned right. -/
theorem glob_plain
    (hfinds : ∀ p ∈ path, coreGlob (p ++ '/' :: pattern) = (under p).map (p ++ '/' :: ·))
    (hpath : ∀ p ∈ path, Plain p)
    (hnames : ∀ f ∈ allNames under path, Plain f ∧ '\n' ∉ f) :
    glob rx coreGlob path pattern = .ok (allNames under path).eraseDups := by
  rw [glob_eq ⟨hfinds, fun p hp f _ => remove_plain (hpath p hp) f⟩, foldlM_eraseDups_iff]
  intro before f after hsplit
  rw [hsplit] at hnames
  refine seenBefore_plain (hnames f (by simp)).1 fun a ha => (hnames a ?_).2
  exact List.mem_append_left _ ha

/-- The names are returned once each, in the order in which they appear first, if they come out
relative and none matches another one that came before it, and for relative names only then. -/
theorem glob_returns (rx : PerlRegex) (coreGlob under : Text → List Text) (path : List Text)
    (pattern : Text) :
    (Relative rx coreGlob under path pattern ∧
        (∀ before f after, allNames under path = before ++ f :: after → SeenBefore rx before f) →
      glob rx coreGlob path pattern = .ok (allNames under path).eraseDups) ∧
    (Relative rx coreGlob under path pattern →
      glob rx coreGlob path pattern = .ok (allNames under path).eraseDups →
      ∀ before f after, allNames under path = before ++ f :: after → SeenBefore rx before f) := by
  constructor
  · rintro ⟨hrelative, hseen⟩
    rw [glob_eq hrelative, foldlM_eraseDups_iff]
    exact hseen
  · intro hrelative hright
    rwa [glob_eq hrelative, foldlM_eraseDups_iff] at hright

/-- A dot in a later name matches any character of an earlier one. -/
theorem not_glob_returns : ∃ (coreGlob under : Text → List Text) (path : List Text)
    (pattern : Text), (∀ p ∈ path, coreGlob (p ++ '/' :: pattern) = (under p).map (p ++ '/' :: ·)) ∧
    glob dotPlusRegex coreGlob path pattern ≠ .ok (allNames under path).eraseDups := by
  refine ⟨fun t => if t = "/a/*".toList then ["/a/abc".toList] else ["/b/a.c".toList],
    fun p => if p = "/a".toList then ["abc".toList] else ["a.c".toList],
    ["/a".toList, "/b".toList], ['*'], by decide, by decide⟩

end Awb.SearchPath
