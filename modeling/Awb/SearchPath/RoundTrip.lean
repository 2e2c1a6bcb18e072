import Awb.SearchPath.Resolve

/-! A file that `resolve` found is unresolved to a name that resolves to the file again, if the name
was canonical and some directory of the search path, as a regular expression, leads back. Whatever
`unresolve` returns resolves to the link-free form of the file. -/

namespace Awb.SearchPath

/-- The first directory that has the name has this file under it; if there is none, the name itself
is that of the file. -/
def LeadsTo (fs : FileSystem) (path : List Text) (name file : Text) : Prop :=
  match path.find? fun p => fs.fileExists (p ++ '/' :: name) with
  | some p => p ++ '/' :: name = file
  | none => fs.fileExists name = true ∧ fs.delinkify name = file

/-- As a regular expression, a directory matches the beginning of the file's name, and the name that
is captured behind it leads to the file. All directories before it are regular expressions. -/
def LeadsBack (rx : PerlRegex) (fs : FileSystem) (path : List Text) (file : Text) : Prop :=
  ∃ before q after name, path = before ++ q :: after ∧
    (∀ p ∈ before, ∃ captured, rx.behind p file = .ok captured) ∧
    rx.behind q file = .ok (some name) ∧ LeadsTo fs path name file

variable {rx : PerlRegex} {fs : FileSystem} {path dirs names : List Text}
  {d f file name u : Text}

theorem resolve_eq_some_iff : fs.resolve path name = some file ↔ LeadsTo fs path name file := by
  unfold FileSystem.resolve LeadsTo
  cases path.find? fun p => fs.fileExists (p ++ '/' :: name) with
  | some p => exact Option.some_inj
  | none =>
    dsimp only
    split_ifs with hexists
    · exact Option.some_inj.trans (by simp [hexists])
    · simp [hexists]

/-- What the loop returns leads to the file. -/
theorem leadsTo_of_unresolveFrom (h : fs.unresolveFrom rx path file dirs = .ok (some u)) :
    LeadsTo fs path u file := by
  induction dirs with
  | nil => cases h
  | cons p dirs ih =>
    rw [FileSystem.unresolveFrom] at h
    split at h
    · cases h
    · exact ih h
    · split_ifs at h with hname
      · obtain rfl := Option.some.inj (Except.ok.inj h)
        exact resolve_eq_some_iff.mp hname
      · exact ih h

/-- The loop returns a name if it comes to a directory that leads back. -/
theorem unresolveFrom_iff : (∃ u, fs.unresolveFrom rx path file dirs = .ok (some u)) ↔
    ∃ before q after name, dirs = before ++ q :: after ∧
      (∀ p ∈ before, ∃ captured, rx.behind p file = .ok captured) ∧
      rx.behind q file = .ok (some name) ∧ LeadsTo fs path name file := by
  induction dirs with
  | nil =>
    constructor
    · rintro ⟨u, h⟩
      cases h
    · rintro ⟨before, q, after, name, h, -⟩
      cases before <;> cases h
  | cons p dirs ih =>
    rw [FileSystem.unresolveFrom]
    cases hbehind : rx.behind p file with
    | error message =>
      constructor
      · rintro ⟨u, h⟩
        cases h
      · rintro ⟨before, q, after, name, h, hbefore, hq, -⟩
        cases before with
        | nil =>
          obtain ⟨rfl, -⟩ := List.cons.inj h
          rw [hbehind] at hq
          cases hq
        | cons b before =>
          obtain ⟨rfl, -⟩ := List.cons.inj h
          obtain ⟨captured, hcaptured⟩ := hbefore p List.mem_cons_self
          rw [hbehind] at hcaptured
          cases hcaptured
    | ok captured =>
      have hlater : (∃ before q after name, p :: dirs = before ++ q :: after ∧
          (∀ p ∈ before, ∃ captured, rx.behind p file = .ok captured) ∧
          rx.behind q file = .ok (some name) ∧ LeadsTo fs path name file) ↔
          (∃ name, captured = some name ∧ LeadsTo fs path name file) ∨
            ∃ u, fs.unresolveFrom rx path file dirs = .ok (some u) := by
        rw [ih]
        constructor
        · rintro ⟨before, q, after, name, h, hbefore, hq, hname⟩
          cases before with
          | nil =>
            obtain ⟨rfl, -⟩ := List.cons.inj h
            rw [hbehind] at hq
            exact .inl ⟨name, Except.ok.inj hq, hname⟩
          | cons b before =>
            obtain ⟨rfl, rfl⟩ := List.cons.inj h
            exact .inr ⟨before, q, after, name, rfl,
              fun p hp => hbefore p (List.mem_cons_of_mem _ hp), hq, hname⟩
        · rintro (⟨name, rfl, hname⟩ | ⟨before, q, after, name, rfl, hbefore, hq, hname⟩)
          · exact ⟨[], p, dirs, name, rfl, by simp, hbehind, hname⟩
          · exact ⟨p :: before, q, after, name, rfl,
              List.forall_mem_cons.mpr ⟨⟨captured, hbehind⟩, hbefore⟩, hq, hname⟩
      rw [hlater]
      cases captured with
      | none => simp
      | some name =>
        by_cases hname : LeadsTo fs path name file
        · simp [resolve_eq_some_iff, hname]
        · simp [resolve_eq_some_iff, hname]

/-- Directories whose names are plain lead back, whatever a name without a line end is. -/
theorem leadsBack_of_plain (hplain : ∀ p ∈ path, Plain p) (hline : '\n' ∉ f)
    (hfirst : path.find? (fun p => fs.fileExists (p ++ '/' :: f)) = some d) :
    LeadsBack rx fs path (d ++ '/' :: f) := by
  obtain ⟨before, after, hpath⟩ := List.append_of_mem (List.mem_of_find?_eq_some hfirst)
  refine ⟨before, d, after, f, hpath, fun p hp => ?_, ?_, ?_⟩
  · exact ⟨_, rx.behind_plain p _ (hplain p (hpath ▸ List.mem_append_left _ hp))⟩
  · have hstarts : (d ++ ['/']) <+: d ++ '/' :: f := ⟨f, by simp⟩
    have hdrop : (d ++ '/' :: f).drop (d.length + 1) = f := by
      rw [List.drop_append]
      simp
    have hwhole : f.takeWhile (· ≠ '\n') = f := by
      refine List.takeWhile_eq_self_iff.mpr fun c hc => ?_
      have hne : c ≠ '\n' := fun h => hline (h ▸ hc)
      simpa using hne
    rw [rx.behind_plain d _ (hplain d (List.mem_of_find?_eq_some hfirst)),
      if_pos (List.isPrefixOf_iff_prefix.mpr hstarts), hdrop, hwhole]
  · rw [LeadsTo, hfirst]

/-- A name that is found in a directory of the search path comes back from the file if it is
canonical and a directory leads back to the file. What `unresolve` returns for any name resolves to
its link-free form. -/
theorem roundTrip_iff (rx : PerlRegex) (fs : FileSystem) (path names : List Text) (f : Text)
    (hnames : Names names) (hrel : f.head? ≠ some '/')
    (hfirst : path.find? (fun p => fs.fileExists (p ++ '/' :: f)) = some (absPath names))
    (hlinks : fs.LinkFree (absPath names ++ '/' :: f)) :
    ((∃ r u, fs.resolve path f = some r ∧ fs.unresolve rx path r = .ok (some u) ∧
        fs.resolve path u = some r) ↔
      Canonical fs (absPath names) f ∧ LeadsBack rx fs path (absPath names ++ '/' :: f)) ∧
    ∀ a u, fs.unresolve rx path a = .ok (some u) →
      fs.resolve path u = some (fs.delinkify a) := by
  have hback : ∀ a u, fs.unresolve rx path a = .ok (some u) →
      fs.resolve path u = some (fs.delinkify a) := fun a u h =>
    resolve_eq_some_iff.mpr (leadsTo_of_unresolveFrom h)
  have hresolve : fs.resolve path f = some (absPath names ++ '/' :: f) := by
    rw [resolve_eq_some_iff, LeadsTo, hfirst]
  refine ⟨?_, hback⟩
  rw [← FileSystem.delinkify_eq_self_iff hnames hlinks hrel]
  constructor
  · rintro ⟨r, u, hr, hu, hagain⟩
    obtain rfl := Option.some.inj (hresolve.symm.trans hr)
    have hself := Option.some.inj ((hback _ u hu).symm.trans hagain)
    rw [FileSystem.unresolve, hself] at hu
    exact ⟨hself, unresolveFrom_iff.mp ⟨u, hu⟩⟩
  · rintro ⟨hself, hleads⟩
    obtain ⟨u, hu⟩ := unresolveFrom_iff.mpr hleads
    exact ⟨_, u, hresolve, by rw [FileSystem.unresolve, hself, hu],
      resolve_eq_some_iff.mpr (leadsTo_of_unresolveFrom hu)⟩

/-- One file in a directory, without links. -/
def oneFile (dir : Text) : FileSystem where
  cwd := ['/']
  fileExists t := t = '/' :: dir || t = '/' :: dir ++ "/x".toList
  isDir t := t = ['/'] || t = '/' :: dir
  realpath t := t

theorem linkFree_oneFile : (oneFile "lib".toList).LinkFree "/lib/x".toList :=
  ⟨by decide, by decide, by decide⟩

theorem roundTrip_lib : ∃ r u, (oneFile "lib".toList).resolve ["/lib".toList] ['x'] = some r ∧
    (oneFile "lib".toList).unresolve dotPlusRegex ["/lib".toList] r = .ok (some u) ∧
    (oneFile "lib".toList).resolve ["/lib".toList] u = some r :=
  ((roundTrip_iff dotPlusRegex (oneFile "lib".toList) ["/lib".toList] ["lib".toList] ['x']
    (List.forall_mem_singleton.mpr ⟨rfl, by decide⟩) (by decide) (by decide)
    linkFree_oneFile).1).mpr
      ⟨⟨List.forall_mem_singleton.mpr rfl, by decide⟩,
        leadsBack_of_plain (List.forall_mem_singleton.mpr rfl) (by decide) (by decide)⟩

/-- A directory with a plus sign does not lead back. -/
theorem not_roundTrip : ¬ ∀ (rx : PerlRegex) (fs : FileSystem) (path names : List Text) (f : Text),
    Names names → f.head? ≠ some '/' →
    path.find? (fun p => fs.fileExists (p ++ '/' :: f)) = some (absPath names) →
    fs.LinkFree (absPath names ++ '/' :: f) →
    ∃ r u, fs.resolve path f = some r ∧ fs.unresolve rx path r = .ok (some u) ∧
      fs.resolve path u = some r := by
  intro h
  obtain ⟨r, u, hr, hu, -⟩ := h dotPlusRegex (oneFile "a+b".toList) ["/a+b".toList]
    ["a+b".toList] ['x'] (List.forall_mem_singleton.mpr ⟨rfl, by decide⟩) (by decide) (by decide)
    ⟨by decide, by decide, by decide⟩
  have hfile : (oneFile "a+b".toList).resolve ["/a+b".toList] ['x'] = some "/a+b/x".toList := by
    decide
  obtain rfl := Option.some.inj (hfile.symm.trans hr)
  have hnone : (oneFile "a+b".toList).unresolve dotPlusRegex ["/a+b".toList] "/a+b/x".toList =
      .ok none := by decide
  rw [hnone] at hu
  cases Except.ok.inj hu

end Awb.SearchPath
