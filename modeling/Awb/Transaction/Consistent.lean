import Awb.Transaction.Replay

/-! The invariant of a transaction: what holds of the files and the logs after every call and
every edit. -/

namespace Awb.Transaction
open Command Registration

/-- The invariant of a transaction whose first backup has the index `first`. -/
structure Consistent (pid first : Nat) (s : Session) : Prop where
  tree : s.x.files.Tree
  abortLog : s.x.abortLog = s.history.flatMap (abortCommands pid) ++ [echo "Transaction Aborted"]
  commitLog : s.x.commitLog =
    s.history.flatMap (commitCommands pid) ++ [echo "Transaction Commited."]
  valid : Valid pid s.history
  ready : Ready pid s.history s.x.files
  tempFile : ∀ i, s.x.files (temp pid i) ≠ some .dir
  below : ∀ d ∈ s.history, d.mode = .dir → d.found = none → ∀ p, d.path <+: p →
    (∀ i, p ≠ temp pid i) → ¬ s.isFile p → ∀ content, s.x.files p ≠ some (.file content)
  older : ∀ r ∈ s.history, r.backs → r.index < s.x.index
  made : ∀ i, first ≤ i → i < s.x.index → ∃ r ∈ s.history, r.backs ∧ r.index = i

theorem Registration.Valid.notTemp {pid : Nat} {history : List Registration} (h : Valid pid history)
    {r : Registration} (hr : r ∈ history) (i : Nat) : r.path ≠ temp pid i := by
  induction history with
  | nil => cases hr
  | cons r' older ih =>
    rcases List.mem_cons.mp hr with rfl | hr
    · exact h.1.notTemp i
    · exact ih h.2 hr

section
variable {s : Session} {p q : Path} {n : Option Node}

theorem Session.edit_files_self : (s.edit p n).x.files p = n := by
  simp [Session.edit]

theorem Session.edit_files_of_ne (h : q ≠ p) : (s.edit p n).x.files q = s.x.files q := by
  simp [Session.edit, h]

end

namespace Consistent
variable {pid first : Nat} {s : Session} {p : Path}

theorem notTemp (h : Consistent pid first s) (hp : s.isFile p ∨ s.isDir p) (i : Nat) :
    p ≠ temp pid i := by
  rcases hp with ⟨r, hr, _, rfl⟩ | ⟨r, hr, _, rfl⟩
  · exact h.valid.notTemp hr i
  · exact h.valid.notTemp hr i

theorem file_notDir (h : Consistent pid first s) (hp : s.isFile p) : s.x.files p ≠ some .dir := by
  obtain ⟨r, hr, hfile, rfl⟩ := hp
  exact h.ready.notDir r hr hfile

/-- An edit of a registered path. -/
theorem edit (h : Consistent pid first s) {n : Option Node} (htemp : ∀ i, p ≠ temp pid i)
    (hparent : n ≠ none → s.x.files.hasParent p = true)
    (hchild : n ≠ some .dir → ∀ name, s.x.files (p ++ [name]) = none)
    (hdir : s.isFile p → n ≠ some .dir) (hfile : ∀ content, n = some (.file content) → s.isFile p) :
    Consistent pid first (s.edit p n) := by
  constructor
  · exact h.tree.update hparent hchild
  · exact h.abortLog
  · exact h.commitLog
  · exact h.valid
  · constructor
    · intro r hr hbacks
      have hne : temp pid r.index ≠ p := fun hi => htemp r.index hi.symm
      exact (Session.edit_files_of_ne hne).trans (h.ready.backup r hr hbacks)
    · intro r hr hr' hrdir
      by_cases hp : r.path = p
      · subst hp
        rw [Session.edit_files_self] at hrdir
        exact hdir ⟨r, hr, hr', rfl⟩ hrdir
      · rw [Session.edit_files_of_ne hp] at hrdir
        exact h.ready.notDir r hr hr' hrdir
  · intro i hi
    have hne : temp pid i ≠ p := fun hi => htemp i hi.symm
    rw [Session.edit_files_of_ne hne] at hi
    exact h.tempFile i hi
  · intro d hd hmode hfound q hq hqtemp hqfile content hcontent
    by_cases hqp : q = p
    · subst hqp
      rw [Session.edit_files_self] at hcontent
      exact hqfile (hfile content hcontent)
    · rw [Session.edit_files_of_ne hqp] at hcontent
      exact h.below d hd hmode hfound q hq hqtemp hqfile content hcontent
  · exact h.older
  · exact h.made

/-- The facts about a call that registers a path. -/
structure Registers (pid : Nat) (s : Session) (r : Registration) (x : Xaction) : Prop where
  notTemp : ∀ i, r.path ≠ temp pid i
  found : r.found = s.x.files r.path
  index : r.index = s.x.index
  notDir : r.isFile → r.found ≠ some .dir
  abortLog : x.abortLog = r.abortCommands pid ++ s.x.abortLog
  commitLog : x.commitLog = r.commitCommands pid ++ s.x.commitLog
  backs : r.backs → s.x.files.hasParent (temp pid r.index) = true ∧
    x.files = Function.update s.x.files (temp pid r.index) r.found ∧ x.index = s.x.index + 1
  plain : ¬ r.backs → x.files = s.x.files ∧ x.index = s.x.index

theorem sound (h : Consistent pid first s) {r : Registration} {x : Xaction}
    (hr : Registers pid s r x) : Sound pid s.history r where
  notTemp := hr.notTemp
  notDir := hr.notDir
  index := by
    intro _ r' hr' hbacks
    have hlt : r'.index < s.x.index := h.older r' hr' hbacks
    rw [hr.index]
    omega
  below := by
    intro hfile hfirst d hd hmode hfound hbelow
    have hnew : ¬ s.isFile r.path := by
      rintro ⟨r', hr', hfile', hpath⟩
      exact hfirst r' hr' hfile' hpath
    cases hn : r.found with
    | none => rfl
    | some n =>
      cases n with
      | dir => exact absurd hn (hr.notDir hfile)
      | file content =>
        exact absurd (hr.found.symm.trans hn)
          (h.below d hd hmode hfound r.path hbelow hr.notTemp hnew content)
  spares := by
    intro hmode hfound r' hr' hbacks hbelow
    -- what is below an absent directory does not exist, and the backup does
    have habsent : s.x.files r.path = none := hr.found.symm.trans hfound
    have hne : r.path ≠ temp pid r'.index := hr.notTemp r'.index
    have hnone := h.tree.none_below (by simp [habsent]) hbelow hne
    exact hbacks.2 ((h.ready.backup r' hr' hbacks).symm.trans hnone)

theorem register (h : Consistent pid first s) {r : Registration} {x : Xaction}
    (hr : Registers pid s r x) : Consistent pid first { x := x, history := r :: s.history } := by
  -- the files change at the new backup only
  have hfiles : ∀ q, (∀ i, q ≠ temp pid i) → x.files q = s.x.files q := by
    intro q hq
    by_cases hb : r.backs
    · rw [(hr.backs hb).2.1, Function.update_of_ne (hq r.index)]
    · rw [(hr.plain hb).1]
  have hfile : ∀ q, s.isFile q → Session.isFile { x := x, history := r :: s.history } q := by
    rintro q ⟨r', hr', hfile, hpath⟩
    exact ⟨r', List.mem_cons_of_mem r hr', hfile, hpath⟩
  constructor
  · by_cases hb : r.backs
    · obtain ⟨hparent, hfiles, _⟩ := hr.backs hb
      simp only [hfiles]
      apply h.tree.update (fun _ => hparent)
      intro _ name
      have hstarts : temp pid r.index <+: temp pid r.index ++ [name] := List.prefix_append _ _
      exact h.tree.none_below (h.tempFile r.index) hstarts (by simp)
    · simp only [(hr.plain hb).1]
      exact h.tree
  · simp only [hr.abortLog, h.abortLog, List.flatMap_cons, List.append_assoc]
  · simp only [hr.commitLog, h.commitLog, List.flatMap_cons, List.append_assoc]
  · exact ⟨h.sound hr, h.valid⟩
  · constructor
    · intro r' hr' hbacks
      rcases List.mem_cons.mp hr' with rfl | hr'
      · rw [(hr.backs hbacks).2.1, Function.update_self]
      · have hold := h.ready.backup r' hr' hbacks
        by_cases hb : r.backs
        · have hlt : r'.index < s.x.index := h.older r' hr' hbacks
          have hne : temp pid r'.index ≠ temp pid r.index := by
            intro htemp
            have hij : r'.index = r.index := temp_injective htemp
            have hi := hr.index
            omega
          rw [(hr.backs hb).2.1, Function.update_of_ne hne]
          exact hold
        · rw [(hr.plain hb).1]
          exact hold
    · intro r' hr' hfile'
      rcases List.mem_cons.mp hr' with rfl | hr'
      · rw [hfiles r'.path hr.notTemp, ← hr.found]
        exact hr.notDir hfile'
      · rw [hfiles r'.path (h.valid.notTemp hr')]
        exact h.ready.notDir r' hr' hfile'
  · intro i
    by_cases hb : r.backs
    · rw [(hr.backs hb).2.1]
      by_cases hi : temp pid i = temp pid r.index
      · rw [hi, Function.update_self]
        exact hr.notDir hb.1
      · rw [Function.update_of_ne hi]
        exact h.tempFile i
    · rw [(hr.plain hb).1]
      exact h.tempFile i
  · intro d hd hmode hfound q hq hqtemp hqfile content hcontent
    rw [hfiles q hqtemp] at hcontent
    rcases List.mem_cons.mp hd with rfl | hd
    · have habsent : s.x.files d.path = none := hr.found.symm.trans hfound
      by_cases hne : d.path = q
      · rw [← hne, habsent] at hcontent
        cases hcontent
      · rw [h.tree.none_below (by simp [habsent]) hq hne] at hcontent
        cases hcontent
    · exact h.below d hd hmode hfound q hq hqtemp (fun hold => hqfile (hfile q hold)) content
        hcontent
  · intro r' hr' hbacks
    rcases List.mem_cons.mp hr' with rfl | hr'
    · have hi := hr.index
      have hx := (hr.backs hbacks).2.2
      simp only
      omega
    · have hlt : r'.index < s.x.index := h.older r' hr' hbacks
      by_cases hb : r.backs
      · have hx := (hr.backs hb).2.2
        simp only
        omega
      · have hx := (hr.plain hb).2
        simp only
        omega
  · intro i hi hlt
    by_cases hb : r.backs
    · have hx : x.index = s.x.index + 1 := (hr.backs hb).2.2
      by_cases hnew : i = s.x.index
      · exact ⟨r, List.mem_cons_self, hb, hr.index.trans hnew.symm⟩
      · have hold : i < s.x.index := by
          simp only at hlt
          omega
        obtain ⟨r', hr', hr''⟩ := h.made i hi hold
        exact ⟨r', List.mem_cons_of_mem r hr', hr''⟩
    · have hx : x.index = s.x.index := (hr.plain hb).2
      obtain ⟨r', hr', hr''⟩ := h.made i hi (by simp only at hlt; omega)
      exact ⟨r', List.mem_cons_of_mem r hr', hr''⟩


/-- A file that is backed up: the copy stands in its temporary file. -/
theorem backUp_eq (h : Consistent pid first s) (hfound : s.x.files p ≠ none)
    (hcp : s.x.files p = none ∨ ((cp p (temp pid s.x.index)).run s.x.files).isSome) :
    s.x.files p ≠ some .dir ∧ s.x.files.hasParent (temp pid s.x.index) = true ∧
      s.x.backUp pid p = Function.update s.x.files (temp pid s.x.index) (s.x.files p) := by
  obtain ⟨fs, hrun⟩ := Option.isSome_iff_exists.mp (hcp.resolve_left hfound)
  cases hp : s.x.files p with
  | none => exact absurd hp hfound
  | some n =>
    cases n with
    | dir => simp [run, hp] at hrun
    | file content =>
      obtain ⟨hparent, hfs⟩ := cp_eq_some hp (h.tempFile s.x.index) hrun
      refine ⟨by simp, hparent, ?_⟩
      rw [Xaction.backUp, hrun, Option.getD_some, hfs]

theorem addFile {x : Xaction} (h : Consistent pid first s) (htemp : ∀ i, p ≠ temp pid i)
    (hcp : s.x.files p = none ∨ ((cp p (temp pid s.x.index)).run s.x.files).isSome)
    (hx : s.x.addFile pid p = some x) : Consistent pid first (s.register .add p x) := by
  unfold Xaction.addFile at hx
  rw [if_neg (by simp [h.abortLog])] at hx
  apply h.register
  by_cases hfound : s.x.files p = none
  · rw [if_neg (by simp [hfound])] at hx
    obtain rfl := Option.some.inj hx
    exact {
      notTemp := htemp
      found := rfl
      index := rfl
      notDir := fun _ => by simp [hfound]
      abortLog := by simp [abortCommands, hfound]
      commitLog := by simp [commitCommands, hfound]
      backs := fun hb => absurd hfound hb.2
      plain := fun _ => ⟨rfl, rfl⟩ }
  · rw [if_pos hfound] at hx
    obtain rfl := Option.some.inj hx
    obtain ⟨hdir, hparent, hfiles⟩ := h.backUp_eq hfound hcp
    obtain ⟨n, hn⟩ := Option.ne_none_iff_exists'.mp hfound
    exact {
      notTemp := htemp
      found := rfl
      index := rfl
      notDir := fun _ => hdir
      abortLog := by simp [abortCommands, hn]
      commitLog := by simp [commitCommands, hn]
      backs := fun _ => ⟨hparent, hfiles, rfl⟩
      plain := fun hb => absurd ⟨by simp [isFile], hfound⟩ hb }

theorem protectFile {x : Xaction} (h : Consistent pid first s) (htemp : ∀ i, p ≠ temp pid i)
    (hcp : s.x.files p = none ∨ ((cp p (temp pid s.x.index)).run s.x.files).isSome)
    (hx : s.x.protectFile pid p = some x) : Consistent pid first (s.register .protect p x) := by
  unfold Xaction.protectFile at hx
  rw [if_neg (by simp [h.abortLog])] at hx
  apply h.register
  by_cases hfound : s.x.files p = none
  · rw [if_neg (by simp [hfound]), if_neg (by simp [hfound])] at hx
    obtain rfl := Option.some.inj hx
    exact {
      notTemp := htemp
      found := rfl
      index := rfl
      notDir := fun _ => by simp [hfound]
      abortLog := by simp [abortCommands, hfound]
      commitLog := by simp [commitCommands, hfound]
      backs := fun hb => absurd hfound hb.2
      plain := fun _ => ⟨rfl, rfl⟩ }
  · obtain ⟨hdir, hparent, hfiles⟩ := h.backUp_eq hfound hcp
    rw [if_neg hdir, if_pos hfound] at hx
    obtain rfl := Option.some.inj hx
    obtain ⟨n, hn⟩ := Option.ne_none_iff_exists'.mp hfound
    exact {
      notTemp := htemp
      found := rfl
      index := rfl
      notDir := fun _ => hdir
      abortLog := by simp [abortCommands, hn]
      commitLog := by simp [commitCommands, hn]
      backs := fun _ => ⟨hparent, hfiles, rfl⟩
      plain := fun hb => absurd ⟨by simp [isFile], hfound⟩ hb }

theorem addDir {x : Xaction} (h : Consistent pid first s) (htemp : ∀ i, p ≠ temp pid i)
    (hx : s.x.addDir p = some x) : Consistent pid first (s.register .dir p x) := by
  unfold Xaction.addDir at hx
  rw [if_neg (by simp [h.abortLog])] at hx
  apply h.register
  by_cases hfound : s.x.files p = none
  · rw [if_neg (by simp [hfound])] at hx
    obtain rfl := Option.some.inj hx
    exact {
      notTemp := htemp
      found := rfl
      index := rfl
      notDir := fun hf => absurd rfl hf
      abortLog := by simp [abortCommands, hfound]
      commitLog := by simp [commitCommands]
      backs := fun hb => absurd rfl hb.1
      plain := fun _ => ⟨rfl, rfl⟩ }
  · rw [if_pos hfound] at hx
    obtain rfl := Option.some.inj hx
    obtain ⟨n, hn⟩ := Option.ne_none_iff_exists'.mp hfound
    exact {
      notTemp := htemp
      found := rfl
      index := rfl
      notDir := fun hf => absurd rfl hf
      abortLog := by simp [abortCommands, hn]
      commitLog := by simp [commitCommands]
      backs := fun hb => absurd rfl hb.1
      plain := fun _ => ⟨rfl, rfl⟩ }

/-- Nothing is below a name that is no directory. -/
theorem no_child (h : Consistent pid first s) (hp : s.x.files p ≠ some .dir) (name : String) :
    s.x.files (p ++ [name]) = none :=
  h.tree.none_below hp (List.prefix_append p [name]) (by simp)

theorem step {e : Event} {s' : Session} (h : Consistent pid first s) (hstep : Step pid s e s') :
    Consistent pid first s' := by
  cases hstep with
  | addFile htemp hcp hx => exact h.addFile htemp hcp hx
  | protectFile htemp hcp hx => exact h.protectFile htemp hcp hx
  | addDir htemp hx => exact h.addDir htemp hx
  | @write p content hfile hparent =>
    apply h.edit (h.notTemp (Or.inl hfile)) (fun _ => hparent)
    · exact fun _ => h.no_child (h.file_notDir hfile)
    · simp
    · exact fun _ _ => hfile
  | @delete p hfile =>
    apply h.edit (h.notTemp (Or.inl hfile)) (fun hn => absurd rfl hn)
    · exact fun _ => h.no_child (h.file_notDir hfile)
    · simp
    · simp
  | @mkdir p hdir hfile habsent hparent =>
    apply h.edit (h.notTemp (Or.inr hdir)) (fun _ => hparent)
    · exact fun hn => absurd rfl hn
    · exact fun hf => absurd hf hfile
    · simp
  | @rmdir p hdir hp hempty =>
    apply h.edit (h.notTemp (Or.inr hdir)) (fun hn => absurd rfl hn)
    · exact fun _ => hempty
    · simp
    · simp

/-- A transaction begins with nothing registered. -/
theorem start {x x₀ : Xaction} (habort : x.abortLog = []) (hcommit : x.commitLog = [])
    (htree : x.files.Tree) (htemp : ∀ i, x.files (temp pid i) ≠ some .dir)
    (hstart : x.start = some x₀) : Consistent pid x.index { x := x₀, history := [] } := by
  unfold Xaction.start at hstart
  rw [if_neg (by simp [habort])] at hstart
  obtain rfl := Option.some.inj hstart
  constructor
  · exact htree
  · simp [habort]
  · simp [hcommit]
  · trivial
  · constructor
    · intro r hr
      cases hr
    · intro r hr
      cases hr
  · exact htemp
  · intro d hd
    cases hd
  · intro r hr
    cases hr
  · intro i hi hlt
    exact absurd hlt (Nat.not_lt.mpr hi)

theorem run {events : List Event} {s₀ : Session} (h : Consistent pid first s₀)
    (hrun : Lts.Run (Step pid) s₀ events s) : Consistent pid first s :=
  hrun.invariant (fun _ s => Consistent pid first s) h fun _ _ _ _ h hstep => h.step hstep

end Consistent

end Awb.Transaction
