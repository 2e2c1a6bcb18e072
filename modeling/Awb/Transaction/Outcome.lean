import Awb.Transaction.Consistent

/-! What `abort` and `commit` make of the files after any transaction. -/

namespace Awb.Transaction
open Command Registration

/-- The oldest registration of its path among those of a kind. -/
def Session.First (s : Session) (kind : Registration → Prop) (r : Registration) : Prop :=
  ∃ newer older, s.history = newer ++ r :: older ∧ kind r ∧
    ∀ r' ∈ older, r'.path = r.path → ¬ kind r'

namespace Registration
variable {pid : Nat} {history newer older : List Registration} {r : Registration} {p : Path}

theorem Valid.sound (h : Valid pid (newer ++ r :: older)) : Sound pid older r := by
  induction newer with
  | nil => exact h.1
  | cons _ newer ih => exact ih h.2

/-- The write to a temporary file removes it. -/
theorem restored_temp (hr : ∀ i, r.path ≠ temp pid i) (i : Nat) :
    r.restored pid (temp pid i) = none ∨ r.restored pid (temp pid i) = some none := by
  unfold restored
  rw [if_neg fun hi => hr i hi.symm]
  split_ifs
  · exact Or.inr rfl
  · exact Or.inl rfl

theorem abortWrite_temp (hr : ∀ i, r.path ≠ temp pid i) (i : Nat) :
    r.abortWrite pid (temp pid i) = none ∨ r.abortWrite pid (temp pid i) = some none := by
  by_cases hfile : r.isFile
  · rw [abortWrite_of_isFile hfile]
    exact restored_temp hr i
  · have hmode : r.mode = .dir := not_not.mp hfile
    simp only [abortWrite, hmode]
    split_ifs
    · exact Or.inr rfl
    · exact Or.inl rfl

theorem commitWrite_temp (hr : ∀ i, r.path ≠ temp pid i) (i : Nat) :
    r.commitWrite pid (temp pid i) = none ∨ r.commitWrite pid (temp pid i) = some none := by
  cases hmode : r.mode with
  | dir => exact Or.inl (by simp only [commitWrite, hmode])
  | add =>
    simp only [commitWrite, hmode]
    split_ifs
    · exact Or.inr rfl
    · exact Or.inl rfl
  | protect =>
    simp only [commitWrite, hmode]
    exact restored_temp hr i

theorem restored_own (hr : ∀ i, r.path ≠ temp pid i) (hbacks : r.backs) :
    r.restored pid (temp pid r.index) = some none := by
  unfold restored
  rw [if_neg fun hi => hr r.index hi.symm, if_pos ⟨hbacks.2, rfl⟩]

theorem abortWrite_own (hr : ∀ i, r.path ≠ temp pid i) (hbacks : r.backs) :
    r.abortWrite pid (temp pid r.index) = some none := by
  rw [abortWrite_of_isFile hbacks.1]
  exact restored_own hr hbacks

theorem commitWrite_own (hr : ∀ i, r.path ≠ temp pid i) (hbacks : r.backs) :
    r.commitWrite pid (temp pid r.index) = some none := by
  cases hmode : r.mode with
  | dir => exact absurd hmode hbacks.1
  | add =>
    simp only [commitWrite, hmode]
    exact if_pos ⟨hbacks.2, trivial⟩
  | protect =>
    simp only [commitWrite, hmode]
    exact restored_own hr hbacks

/-- Each backup is removed when a log is replayed. -/
theorem Replays.gone {effect : Registration → Path → Option (Option Node)} {fs : Files}
    (hvalid : Valid pid history) (hr : r ∈ history) (hown : effect r (temp pid r.index) = some none)
    (heffect : ∀ r', (∀ i, r'.path ≠ temp pid i) → ∀ i,
      effect r' (temp pid i) = none ∨ effect r' (temp pid i) = some none) :
    Overlay.writeAll (history.map effect) fs (temp pid r.index) = none := by
  obtain ⟨newer, older, rfl⟩ := List.append_of_mem hr
  rw [List.map_append, List.map_cons]
  apply Overlay.writeAll_of_last hown
  intro w hw
  obtain ⟨r', hr', rfl⟩ := List.mem_map.mp hw
  have hmem : r' ∈ newer ++ r :: older := by simp [hr']
  exact heffect r' (hvalid.notTemp hmem) r.index

/-- The oldest registration of a file has the last word. -/
theorem abort_first (hvalid : Valid pid (newer ++ r :: older)) (hfile : r.isFile)
    (hfirst : ∀ r' ∈ older, r'.path = r.path → ¬ r'.isFile) {fs : Files} :
    Overlay.writeAll ((newer ++ r :: older).map (abortWrite pid)) fs r.path = r.found := by
  have hsound : Sound pid older r := hvalid.sound
  rw [List.map_append, List.map_cons]
  apply Overlay.writeAll_of_last
  · rw [abortWrite_of_isFile hfile]
    exact restored_path
  · intro w hw
    obtain ⟨r', hr', rfl⟩ := List.mem_map.mp hw
    by_cases hfile' : r'.isFile
    · have hne : r'.path ≠ r.path := fun hpath => hfirst r' hr' hpath hfile'
      left
      rw [abortWrite_of_isFile hfile', restored, if_neg hne.symm,
        if_neg fun ht => hsound.notTemp r'.index ht.2]
    · have hmode : r'.mode = .dir := not_not.mp hfile'
      simp only [abortWrite, hmode]
      split_ifs with hgone
      · -- what stood below an absent directory was absent when it was registered
        have hfound : r.found = none := by
          apply hsound.below hfile _ r' hr' hmode hgone.1 hgone.2
          exact fun r'' hr'' hfile'' hpath => hfirst r'' hr'' hpath hfile''
        exact Or.inr (by rw [hfound])
      · exact Or.inl rfl

theorem commit_first (hvalid : Valid pid (newer ++ r :: older)) (hmode : r.mode = .protect)
    (hfirst : ∀ r' ∈ older, r'.path = r.path → r'.mode ≠ .protect) {fs : Files} :
    Overlay.writeAll ((newer ++ r :: older).map (commitWrite pid)) fs r.path = r.found := by
  have hsound : Sound pid older r := hvalid.sound
  rw [List.map_append, List.map_cons]
  apply Overlay.writeAll_of_last
  · simp only [commitWrite, hmode]
    exact restored_path
  · intro w hw
    obtain ⟨r', hr', rfl⟩ := List.mem_map.mp hw
    left
    cases hmode' : r'.mode with
    | dir => simp only [commitWrite, hmode']
    | add =>
      simp only [commitWrite, hmode']
      rw [if_neg fun ht => hsound.notTemp r'.index ht.2]
    | protect =>
      have hne : r'.path ≠ r.path := fun hpath => hfirst r' hr' hpath hmode'
      simp only [commitWrite, hmode']
      rw [restored, if_neg hne.symm, if_neg fun ht => hsound.notTemp r'.index ht.2]

theorem commit_kept (hp : ∀ i, p ≠ temp pid i)
    (hadd : ∀ r ∈ history, r.path = p → r.mode ≠ .protect) {fs : Files} :
    Overlay.writeAll (history.map (commitWrite pid)) fs p = fs p := by
  apply Overlay.writeAll_of_none
  intro w hw
  obtain ⟨r, hr, rfl⟩ := List.mem_map.mp hw
  cases hmode : r.mode with
  | dir => simp only [commitWrite, hmode]
  | add =>
    simp only [commitWrite, hmode]
    rw [if_neg fun ht => hp r.index ht.2]
  | protect =>
    have hne : r.path ≠ p := fun hpath => hadd r hr hpath hmode
    simp only [commitWrite, hmode]
    rw [restored, if_neg hne.symm, if_neg fun ht => hp r.index ht.2]

end Registration

/-- No backup made since `first` is left, and the logs are empty. -/
structure Closed (pid first : Nat) (s : Session) (x : Xaction) : Prop where
  backups : ∀ i, first ≤ i → i < s.x.index → x.files (temp pid i) = none
  abortLog : x.abortLog = []
  commitLog : x.commitLog = []

namespace Consistent
variable {pid first : Nat} {s : Session} {x : Xaction}

theorem abort_eq (h : Consistent pid first s) (hx : s.x.abort = some x) :
    x.files = Overlay.writeAll (s.history.map (abortWrite pid)) s.x.files ∧
      x.abortLog = [] ∧ x.commitLog = [] := by
  unfold Xaction.abort at hx
  rw [if_neg (by simp [h.abortLog])] at hx
  obtain ⟨fs, hfs, rfl⟩ := Option.map_eq_some_iff.mp hx
  rw [h.abortLog, runAll_append] at hfs
  obtain ⟨fs', hlog, hecho⟩ := Option.bind_eq_some_iff.mp hfs
  obtain rfl : fs' = fs := Option.some.inj hecho
  exact ⟨(abort_replays pid).run h.valid h.ready hlog, rfl, rfl⟩

theorem commit_eq (h : Consistent pid first s) (hx : s.x.commit = some x) :
    x.files = Overlay.writeAll (s.history.map (commitWrite pid)) s.x.files ∧
      x.abortLog = [] ∧ x.commitLog = [] := by
  unfold Xaction.commit at hx
  rw [if_neg (by simp [h.abortLog])] at hx
  obtain ⟨fs, hfs, rfl⟩ := Option.map_eq_some_iff.mp hx
  rw [h.commitLog, runAll_append] at hfs
  obtain ⟨fs', hlog, hecho⟩ := Option.bind_eq_some_iff.mp hfs
  obtain rfl : fs' = fs := Option.some.inj hecho
  exact ⟨(commit_replays pid).run h.valid h.ready hlog, rfl, rfl⟩

theorem abort_closed (h : Consistent pid first s) (hx : s.x.abort = some x) :
    Closed pid first s x := by
  obtain ⟨hfiles, habort, hcommit⟩ := h.abort_eq hx
  refine ⟨?_, habort, hcommit⟩
  intro i hi hlt
  obtain ⟨r, hr, hbacks, rfl⟩ := h.made i hi hlt
  rw [hfiles]
  exact Replays.gone h.valid hr (abortWrite_own (h.valid.notTemp hr) hbacks)
    fun r' hr' => abortWrite_temp hr'

theorem commit_closed (h : Consistent pid first s) (hx : s.x.commit = some x) :
    Closed pid first s x := by
  obtain ⟨hfiles, habort, hcommit⟩ := h.commit_eq hx
  refine ⟨?_, habort, hcommit⟩
  intro i hi hlt
  obtain ⟨r, hr, hbacks, rfl⟩ := h.made i hi hlt
  rw [hfiles]
  exact Replays.gone h.valid hr (commitWrite_own (h.valid.notTemp hr) hbacks)
    fun r' hr' => commitWrite_temp hr'

end Consistent

/-- What a transaction that ran from `x` to `s` makes of the files. -/
structure Outcome (pid : Nat) (x : Xaction) (s : Session) : Prop where
  abort : ∀ x', s.x.abort = some x' →
    (∀ r, s.First isFile r → x'.files r.path = r.found) ∧ Closed pid x.index s x'
  commit : ∀ x', s.x.commit = some x' →
    (∀ p, s.isFile p → (∀ r ∈ s.history, r.path = p → r.mode ≠ .protect) →
      x'.files p = s.x.files p) ∧
    (∀ r, s.First (fun r => r.mode = .protect) r → x'.files r.path = r.found) ∧
    Closed pid x.index s x'

theorem transaction_outcome (pid : Nat) (x x₀ : Xaction) (hlogs : x.abortLog = [])
    (hcommitLog : x.commitLog = []) (htree : x.files.Tree)
    (htemp : ∀ i, x.files (temp pid i) ≠ some .dir) (hstart : x.start = some x₀)
    {events : List Event} {s : Session}
    (hrun : Lts.Run (Step pid) { x := x₀, history := [] } events s) : Outcome pid x s := by
  have h : Consistent pid x.index s :=
    (Consistent.start hlogs hcommitLog htree htemp hstart).run hrun
  constructor
  · intro x' hx'
    refine ⟨?_, h.abort_closed hx'⟩
    rintro r ⟨newer, older, hhistory, hfile, hfirst⟩
    rw [(h.abort_eq hx').1, hhistory]
    exact abort_first (hhistory ▸ h.valid) hfile hfirst
  · intro x' hx'
    refine ⟨?_, ?_, h.commit_closed hx'⟩
    · intro p hp hadd
      rw [(h.commit_eq hx').1]
      exact commit_kept (h.notTemp (Or.inl hp)) hadd
    · rintro r ⟨newer, older, hhistory, hmode, hfirst⟩
      rw [(h.commit_eq hx').1, hhistory]
      exact commit_first (hhistory ▸ h.valid) hmode hfirst

/-- There is `/tmp`, and nothing else. -/
def bare : Xaction where
  files p := if p = [] ∨ p = ["tmp"] then some .dir else none

/-- `/b` is registered twice, and then written. -/
def written : Session where
  x := {
    files := Function.update bare.files ["b"] (some (.file "text"))
    abortLog := [rm ["b"], rm ["b"], echo "Transaction Aborted"]
    commitLog := [rm ["b"], echo "Transaction Commited."]
    index := 0 }
  history := [
    { path := ["b"], mode := .protect, found := none, index := 0 },
    { path := ["b"], mode := .add, found := none, index := 0 }]

theorem written_run : Lts.Run (Step 7)
    { x := { bare with
        abortLog := [echo "Transaction Aborted"]
        commitLog := [echo "Transaction Commited."] }, history := [] }
    [.addFile ["b"], .protectFile ["b"], .write ["b"] "text"] written := by
  have htemp : ∀ i, ["b"] ≠ temp 7 i := fun i => by simp [temp]
  refine .cons (.addFile htemp (Or.inl ?_) rfl) (.cons (.protectFile htemp (Or.inl ?_) rfl)
    (.single (.write ⟨_, List.mem_cons_self, ?_, rfl⟩ ?_)))
  all_goals decide

theorem transaction_outcome_written : Outcome 7 bare written := by
  refine transaction_outcome 7 bare _ rfl rfl ?_ ?_ rfl written_run
  · intro p name hp
    by_cases hroot : p = []
    · simp [bare, hroot]
    · simp [bare] at hp
      have hlength : p.length + 1 = 1 := by simpa using congrArg List.length hp
      exact absurd (List.length_eq_zero_iff.mp (Nat.succ.inj hlength)) hroot
  · intro i
    simp [bare, temp]

/-- A file that was registered by `addFile` does not survive a commit: `protectFile` was called
too. -/
theorem added_file_not_kept :
    Lts.Run (Step 7) { x := { bare with
        abortLog := [echo "Transaction Aborted"]
        commitLog := [echo "Transaction Commited."] }, history := [] }
      [.addFile ["b"], .protectFile ["b"], .write ["b"] "text"] written ∧
    (∃ r ∈ written.history, r.mode = .add ∧ r.path = ["b"]) ∧
    written.x.files ["b"] = some (.file "text") ∧
    ∃ x', written.x.commit = some x' ∧ x'.files ["b"] = none :=
  ⟨written_run, by decide, rfl, _, rfl, by decide⟩

end Awb.Transaction
