import Awb.Package.LocksReleased
import Awb.Lib.Runs

/-! The serial numbers of a package in a run of commits. -/

namespace Awb.Package
open Stage Locks

variable {P : Type} [DecidableEq P] {vc : P → Vcs} {a : Attempt P} {p q : P}

/-- The number in the package object. -/
def number (s : Shop P) (p : P) : Option Nat := (s.csn p).map serial

/-- Nothing happens to a package; in particular no backup of its file is made. -/
structure Frame (p : P) (s s' : Shop P) : Prop where
  name : s'.name p = s.name p
  value : s'.value p = s.value p
  saved : s'.saved p = s.saved p
  backups : (∀ b ∈ s.backups.getD [], b.1 ≠ p) → ∀ b ∈ s'.backups.getD [], b.1 ≠ p

namespace Frame
variable {s s' s'' : Shop P}

omit [DecidableEq P] in
theorem refl (s : Shop P) : Frame p s s := ⟨rfl, rfl, rfl, id⟩

omit [DecidableEq P] in
theorem trans (h : Frame p s s') (h' : Frame p s' s'') : Frame p s s'' where
  name := h'.name.trans h.name
  value := h'.value.trans h.value
  saved := h'.saved.trans h.saved
  backups := h'.backups ∘ h.backups

end Frame

/-- A stage in which nothing happens to a package. -/
def Stage.Frames (p : P) (f : Stage P) : Prop := ∀ s, Frame p s (f s).2

namespace Stage.Frames
variable {f g : Stage P}

omit [DecidableEq P] in
theorem ask (o : Outcome) : Frames p (Stage.ask o) := Frame.refl

omit [DecidableEq P] in
theorem andThen (hf : Frames p f) (hg : Frames p g) : Frames p (f.andThen g) := by
  intro s
  have hs : Frame p s (f s).2 := hf s
  unfold Stage.andThen
  rcases hfs : f s with ⟨o, s'⟩
  rw [hfs] at hs
  cases o with
  | ok => exact hs.trans (hg s')
  | fail => exact hs
  | die => exact hs

omit [DecidableEq P] in
theorem each {f : P → Stage P} {ps : List P} (hf : ∀ q ∈ ps, Frames p (f q)) :
    Frames p (Stage.each f ps) := by
  induction ps with
  | nil => exact .ask .ok
  | cons q ps ih =>
    rw [List.forall_mem_cons] at hf
    exact hf.1.andThen (ih hf.2)

end Stage.Frames

theorem frame_incrementCsn {kind : Vcs} {revision : Option Nat} (hq : q ≠ p) (s : Shop P) :
    Frame p s (s.incrementCsn kind revision q) := by
  unfold Shop.incrementCsn Shop.setCsn
  dsimp only
  split
  · exact .refl s
  · split
    · exact .refl s
    · split
      · exact ⟨rfl, Function.update_of_ne hq.symm _ _, rfl, id⟩
      · exact .refl s

omit [DecidableEq P] in
theorem frame_addFile (hq : q ≠ p) (s : Shop P) : Frame p s (s.addFile q) := by
  refine ⟨rfl, rfl, rfl, ?_⟩
  unfold Shop.addFile
  cases s.backups with
  | none => exact id
  | some backups =>
    intro h b hb
    rcases List.mem_cons.mp hb with rfl | hb
    · exact hq
    · exact h b hb

theorem frames_updateCsns (hq : q ≠ p) : Frames p (updateCsns vc a q) := fun s =>
  (frame_addFile hq s).trans (frame_incrementCsn hq _)

theorem frames_prepareStage (hq : q ≠ p) : Frames p (prepareStage vc a q) := by
  unfold prepareStage
  split
  · exact .ask .ok
  · refine (Frames.ask _).andThen <| (Frames.ask _).andThen <| (Frames.ask _).andThen <|
      Frames.andThen ?_ (.ask _)
    split
    · exact .ask .ok
    · exact (frames_updateCsns hq).andThen (.ask _)

theorem frames_commitStage (hq : q ≠ p) : Frames p (commitStage vc a q) := by
  have harchive : ∀ upload, Frames p (commitArchive vc upload q) := by
    intro upload s
    have hsave : Frame p s (s.save q) := ⟨rfl, rfl, Function.update_of_ne hq.symm _ _, id⟩
    have hkept : ∀ k, Frame p s ((s.save q).setLocks k) := fun k =>
      ⟨hsave.name, hsave.value, hsave.saved, hsave.backups⟩
    unfold commitArchive
    cases vc q <;> dsimp only <;> (try split) <;> first | exact hsave | exact hkept _
  unfold commitStage
  split
  · exact .ask .ok
  · exact (harchive _).andThen (.ask _)

/-- The steps before a package is given its number succeed. -/
def Attempt.starts (a : Attempt P) (p : P) : Prop :=
  a.needed p = true ∧ a.gold p = .ok ∧ a.wanted p = .ok ∧ a.results p = .ok

theorem frames_prepareStage_self (h : ¬ a.starts p) :
    Frames p (prepareStage vc a p) := by
  unfold prepareStage
  split
  · exact .ask .ok
  · rename_i hneeded
    intro s
    unfold Attempt.starts at h
    cases hgold : a.gold p <;> cases hwanted : a.wanted p <;> cases hresults : a.results p <;>
      simp_all [Stage.andThen, Stage.ask, Frame.refl]

theorem restore_of_ne {backups : List (P × List Char)} {saved : P → List Char}
    (h : ∀ b ∈ backups, b.1 ≠ p) : Shop.restore backups saved p = saved p := by
  induction backups generalizing saved with
  | nil => rfl
  | cons b backups ih =>
    rw [List.forall_mem_cons] at h
    rw [Shop.restore, List.foldl_cons, ← Shop.restore, ih h.2, Function.update_of_ne h.1.symm]

/-- Nothing happened to the numbers of a package. -/
structure Untouched (p : P) (s s' : Shop P) : Prop where
  name : s'.name p = s.name p
  value : s'.value p = s.value p
  saved : s'.saved p = s.saved p

omit [DecidableEq P] in
theorem Frame.untouched {s s' : Shop P} (h : Frame p s s') : Untouched p s s' :=
  ⟨h.name, h.value, h.saved⟩

theorem Frame.abort {s s' : Shop P} (h : Frame p s s') (hs : s.backups = some [])
    (succeeds : Bool) (k : Locks P) :
    Untouched p s ((s'.setLocks k).abort succeeds).2 := by
  unfold Shop.abort Shop.setLocks
  split
  · refine ⟨h.name, h.value, ?_⟩
    dsimp only
    rw [restore_of_ne (h.backups (by simp [hs]))]
    exact h.saved
  · exact ⟨h.name, h.value, h.saved⟩

/-- The preparation comes to the number of a package. -/
def Attempt.numbers (vc : P → Vcs) (a : Attempt P) (p : P) : Prop :=
  a.starts p ∧ ∃ before after, a.all = before ++ p :: after ∧
    ∀ q ∈ before, a.prepared vc q = .ok

omit [DecidableEq P] in
theorem Stage.each_append (f : P → Stage P) (ps qs : List P) :
    Stage.each f (ps ++ qs) = (Stage.each f ps).andThen (Stage.each f qs) := by
  induction ps with
  | nil => rfl
  | cons p ps ih => rw [List.cons_append, Stage.each, ih, Stage.each, Stage.andThen_assoc]

theorem frames_prepareAll (h : ¬ a.numbers vc p) :
    Frames p (Stage.each (prepareStage vc a) a.all) := by
  by_cases hstarts : a.starts p
  · by_cases hmem : p ∈ a.all
    · obtain ⟨before, after, hall⟩ := List.append_of_mem hmem
      have hnodup : (before ++ p :: after).Nodup := hall ▸ a.all_nodup
      have hbefore : Frames p (Stage.each (prepareStage vc a) before) := by
        apply Frames.each
        intro q hq
        have hdisjoint := List.disjoint_of_nodup_append hnodup
        exact frames_prepareStage fun hqp => hdisjoint hq (by simp [hqp])
      -- a package before this one cannot be prepared
      have hfails : Outcome.seq (before.map (a.prepared vc)) ≠ .ok := by
        intro hok
        rw [Outcome.seq_eq_ok] at hok
        exact h ⟨hstarts, before, after, hall, fun q hq => hok _ (List.mem_map_of_mem hq)⟩
      rw [hall, Stage.each_append]
      intro s
      have hbehaves : Behaves (Stage.each (prepareStage vc a) before) _ id :=
        .each (fun _ => prepareStage_behaves) before
      have houtcome := hbehaves.outcome s
      have hs := hbefore s
      unfold Stage.andThen
      rcases heach : Stage.each (prepareStage vc a) before s with ⟨o, s'⟩
      rw [heach] at houtcome hs
      cases o with
      | ok => exact absurd houtcome.symm hfails
      | fail => exact hs
      | die => exact hs
    · apply Frames.each
      intro q hq
      exact frames_prepareStage fun hqp => hmem (hqp ▸ hq)
  · apply Frames.each
    intro q _
    by_cases hqp : q = p
    · subst hqp
      exact frames_prepareStage_self hstarts
    · exact frames_prepareStage hqp

theorem frames_commitAll (hp : (vc p).pushes = false) (h : p ∈ a.all → a.needed p = false) :
    Frames p (Stage.each (commitStage vc a) a.all) := by
  apply Frames.each
  intro q hq
  by_cases hqp : q = p
  · subst hqp
    rw [commitStage, h hq, hp]
    exact .ask .ok
  · exact frames_commitStage hqp

omit [DecidableEq P] in
/-- Where all packages are prepared, the preparation came to the numbers of those that need it. -/
theorem not_needed (h : ¬ a.numbers vc p)
    (hprepared : Outcome.seq (a.all.map (a.prepared vc)) = .ok) (hmem : p ∈ a.all) :
    a.needed p = false := by
  rw [Outcome.seq_eq_ok, List.forall_mem_map] at hprepared
  by_contra hneeded
  rw [Bool.not_eq_false] at hneeded
  apply h
  have hok := hprepared p hmem
  rw [Attempt.prepared, hneeded, Bool.not_true, if_neg Bool.false_ne_true, Outcome.seq_eq_ok] at hok
  simp only [List.forall_mem_cons] at hok
  obtain ⟨before, after, hall⟩ := List.append_of_mem hmem
  refine ⟨⟨hneeded, hok.1, hok.2.1, hok.2.2.1⟩, before, after, hall, fun q hq => hprepared q ?_⟩
  rw [hall]
  exact List.mem_append_left _ hq

/-- The attempt gives the package a new number. -/
structure Attempt.Reaches (vc : P → Vcs) (a : Attempt P) (p : P) (s : Shop P) : Prop where
  sanity : a.sanity = .ok
  locked : lockables a.service s.locks [] a.all = a.all
  checked : checkAll a.check a.all false = .ok
  started : s.backups = none
  numbers : a.numbers vc p

/-- What the attempt leaves of a package: whether it succeeded with it, and the numbers. -/
def Leaves (a : Attempt P) (p : P) (s : Shop P) (r : End × Shop P) : Prop :=
  Untouched p s r.2 ∧ (r.1 = .returned true → p ∈ a.all → a.needed p = false)

omit [DecidableEq P] in
theorem Untouched.leaves {s s' : Shop P} {e : End} (h : Untouched p s s')
    (he : e ≠ .returned true) : Leaves a p s (e, s') := ⟨h, fun h' => absurd h' he⟩

omit [DecidableEq P] in
theorem untouched_setLocks {s : Shop P} {k : Locks P} : Untouched p s (s.setLocks k) :=
  ⟨rfl, rfl, rfl⟩

theorem commit_leaves {s : Shop P} (hp : (vc p).pushes = false) (h : ¬ a.Reaches vc p s) :
    Leaves a p s (commit vc a s) := by
  have hself : Untouched p s s := ⟨rfl, rfl, rfl⟩
  unfold commit
  cases hsanity : a.sanity with
  | die => exact hself.leaves (by simp)
  | fail => exact hself.leaves (by simp)
  | ok =>
    rw [attempt_ok, submit, lockall_eq]
    by_cases hlocked : lockables a.service s.locks [] a.all = a.all
    · rw [if_pos hlocked]
      dsimp only
      cases hchecked : checkAll a.check a.all false with
      | die => exact untouched_setLocks.leaves (by simp)
      | fail => exact untouched_setLocks.leaves (by simp)
      | ok =>
        rw [attempt_ok]
        cases hstarted : s.backups with
        | some backups =>
          rw [Shop.start_of_some hstarted]
          exact untouched_setLocks.leaves (by simp)
        | none =>
          have hnumbers : ¬ a.numbers vc p := fun hn =>
            h ⟨hsanity, hlocked, hchecked, hstarted, hn⟩
          rw [Shop.start_of_none hstarted, attempt_ok]
          generalize hs₁ : ({ s.setLocks (s.locks.take a.all) with backups := some [] } : Shop P) =
            s₁
          have hbackups₁ : s₁.backups = some [] := by rw [← hs₁]
          have hprepare : Behaves (Stage.each (prepareStage vc a) a.all) _ id :=
            .each (fun _ => prepareStage_behaves) a.all
          have huntouched : ∀ s', Frame p s₁ s' → Untouched p s s' := by
            intro s' hframe
            rw [← hs₁] at hframe
            exact ⟨hframe.name, hframe.value, hframe.saved⟩
          have habort : ∀ s', Frame p s₁ s' →
              Leaves a p s ((s'.unlockall a.service a.all).abort a.abortSucceeds) := by
            intro s' hframe
            have huntouched := hframe.abort hbackups₁ a.abortSucceeds
              (s'.locks.unlockall a.service a.all)
            rw [← hs₁] at huntouched
            refine ⟨⟨huntouched.name, huntouched.value, huntouched.saved⟩, ?_⟩
            unfold Shop.abort
            split <;> simp
          have hframe₂ := frames_prepareAll hnumbers s₁
          have houtcome₂ := hprepare.outcome s₁
          generalize Stage.each (prepareStage vc a) a.all s₁ = r₂ at hframe₂ houtcome₂ ⊢
          obtain ⟨o₂, s₂⟩ := r₂
          cases o₂ with
          | die => exact (huntouched s₂ hframe₂).leaves (by simp)
          | fail => exact habort s₂ hframe₂
          | ok =>
            have hneeded := not_needed hnumbers houtcome₂.symm
            dsimp only
            rw [attempt_ok]
            cases a.proceed with
            | false => exact habort s₂ hframe₂
            | true =>
              have hframe₃ := hframe₂.trans (frames_commitAll hp hneeded s₂)
              simp only [Bool.not_true, Bool.false_eq_true, if_false]
              generalize Stage.each (commitStage vc a) a.all s₂ = r₃ at hframe₃ ⊢
              obtain ⟨o₃, s₃⟩ := r₃
              cases o₃ with
              | die => exact (huntouched s₃ hframe₃).leaves (by simp)
              | fail => exact habort s₃ hframe₃
              | ok =>
                rw [attempt_ok]
                cases a.commitSucceeds with
                | false => exact (huntouched s₃ hframe₃).leaves (by simp)
                | true =>
                  have hfinal := huntouched s₃ hframe₃
                  exact ⟨⟨hfinal.name, hfinal.value, hfinal.saved⟩, fun _ => hneeded⟩
    · rw [if_neg hlocked]
      exact untouched_setLocks.leaves (by simp)

omit [DecidableEq P] in
theorem Stage.andThen_of_ok {f g : Stage P} {s : Shop P} (h : (f s).1 = .ok) :
    (f.andThen g) s = g (f s).2 := by
  unfold Stage.andThen
  rcases hfs : f s with ⟨o, s'⟩
  rw [hfs] at h
  obtain rfl : o = .ok := h
  rfl

omit [DecidableEq P] in
theorem Stage.each_ok {f : P → Stage P} {ps : List P} (h : ∀ q ∈ ps, ∀ s, (f q s).1 = .ok)
    (s : Shop P) : (Stage.each f ps s).1 = .ok := by
  induction ps generalizing s with
  | nil => rfl
  | cons q ps ih =>
    rw [List.forall_mem_cons] at h
    rw [Stage.each, Stage.andThen_of_ok (h.1 s)]
    exact ih h.2 _

omit [DecidableEq P] in
/-- A loop in which every stage succeeds: what happens to a package happens in its own stage. -/
theorem Stage.each_around {f : P → Stage P} {ps : List P} (hok : ∀ q ∈ ps, ∀ s, (f q s).1 = .ok)
    (hframes : ∀ q, q ≠ p → Frames p (f q)) (hps : ps.Nodup) (hp : p ∈ ps) (s : Shop P) :
    ∃ s', Frame p s s' ∧ Frame p (f p s').2 (Stage.each f ps s).2 := by
  obtain ⟨before, after, rfl⟩ := List.append_of_mem hp
  have hbefore : ∀ q ∈ before, q ≠ p := fun q hq hqp =>
    List.disjoint_of_nodup_append hps hq (by simp [hqp])
  have hafter : ∀ q ∈ after, q ≠ p := fun q hq hqp =>
    (List.nodup_cons.mp hps.of_append_right).1 (hqp ▸ hq)
  have hok₁ : (Stage.each f before s).1 = .ok :=
    Stage.each_ok (fun q hq => hok q (List.mem_append_left _ hq)) s
  refine ⟨(Stage.each f before s).2, Frames.each (fun q hq => hframes q (hbefore q hq)) s, ?_⟩
  rw [Stage.each_append, Stage.andThen_of_ok hok₁, Stage.each, Stage.andThen_of_ok (hok p hp _)]
  exact Frames.each (fun q hq => hframes q (hafter q hq)) _

theorem Shop.incrementCsn_value {s : Shop P} {kind : Vcs} {revision : Option Nat} {t : List Char}
    (ht : s.csn p = some t) (hrevision : kind = .svn → revision = some (serial t))
    (hbound : serial t + 1 < 2 ^ 64) :
    (s.incrementCsn kind revision p).value p = stem t ++ Nat.toDigits 10 (serial t + 1) ∧
      (s.incrementCsn kind revision p).name p = s.name p := by
  have hcsn : isCsn t = true := readCsn_eq_some ht
  have hnumber : (if kind = .svn then revision else some (serial t)) = some (serial t) := by
    split
    · rename_i hkind
      exact hrevision hkind
    · rfl
  have hnew : isCsn (stem t ++ Nat.toDigits 10 (serial t + 1)) = true := isCsn_renumber hcsn _
  simp only [Shop.incrementCsn, ht, hnumber, Option.bind_some, successor, if_pos hbound,
    Shop.setCsn, upgrade_of_isCsn hnew, if_pos hnew, Function.update_self, and_self]

theorem prepareStage_value {s : Shop P} {t : List Char} (hp : (vc p).pushes = false)
    (hstarts : a.starts p) (ht : s.csn p = some t)
    (hrevision : vc p = .svn → a.revision p = some (serial t)) (hbound : serial t + 1 < 2 ^ 64) :
    (prepareStage vc a p s).2.value p = stem t ++ Nat.toDigits 10 (serial t + 1) ∧
      (prepareStage vc a p s).2.name p = s.name p := by
  obtain ⟨hneeded, hgold, hwanted, hresults⟩ := hstarts
  have ht' : (s.addFile p).csn p = some t := ht
  have hvalue := Shop.incrementCsn_value ht' hrevision hbound
  rw [prepareStage, hneeded, Bool.not_true, if_neg Bool.false_ne_true, hp,
    if_neg Bool.false_ne_true, Stage.andThen_of_ok hgold, Stage.andThen_of_ok hwanted,
    Stage.andThen_of_ok hresults]
  unfold updateCsns Stage.andThen Stage.ask
  cases a.mytags p <;> cases a.changes p <;> cases a.ipchist p <;> exact hvalue

theorem commitStage_saved {s : Shop P} (hp : (vc p).pushes = false) (hneeded : a.needed p = true)
    (hcommitted : a.committed vc p = .ok) :
    (commitStage vc a p s).2.value p = s.value p ∧
      (commitStage vc a p s).2.saved p = s.value p ∧
      (commitStage vc a p s).2.name p = s.name p := by
  rw [Attempt.committed, hneeded, hp, Bool.not_true, Bool.false_and, if_neg Bool.false_ne_true,
    Outcome.andThen_eq_ok, Outcome.ofBool_eq_ok] at hcommitted
  rw [commitStage, hneeded, hp, Bool.not_true, Bool.false_and, if_neg Bool.false_ne_true]
  have harchive : commitArchive vc (a.upload p) p s = (.ok, s.save p) := by
    have huploaded := hcommitted.1
    unfold uploaded at huploaded
    unfold commitArchive
    cases hvc : vc p <;> simp_all
  rw [Stage.andThen_of_ok (by rw [harchive]), harchive]
  simp [Stage.ask, Shop.save]

/-- Every package is prepared and committed. -/
structure Attempt.Finishes (vc : P → Vcs) (a : Attempt P) : Prop where
  prepared : ∀ q ∈ a.all, a.prepared vc q = .ok
  proceed : a.proceed = true
  committed : ∀ q ∈ a.all, a.committed vc q = .ok
  commits : a.commitSucceeds = true

/-- The commit that gives a package the number `n`. -/
structure Numbered (p : P) (n : Nat) (s s' : Shop P) : Prop where
  number : number s' p = some n
  saved : s'.saved p = s'.value p
  name : s'.name p = s.name p

theorem commit_numbered {s : Shop P} {t : List Char} (hp : (vc p).pushes = false)
    (hreaches : a.Reaches vc p s) (hfinishes : a.Finishes vc) (ht : s.csn p = some t)
    (hrevision : vc p = .svn → a.revision p = some (serial t)) (hbound : serial t + 1 < 2 ^ 64) :
    (commit vc a s).1 = .returned true ∧ p ∈ a.all ∧ a.needed p = true ∧
      Numbered p (serial t + 1) s (commit vc a s).2 := by
  obtain ⟨hstarts, before, after, hall, -⟩ := hreaches.numbers
  have hmem : p ∈ a.all := by simp [hall]
  have hprepareOk : ∀ q ∈ a.all, ∀ s, (prepareStage vc a q s).1 = .ok := fun q hq s =>
    (prepareStage_behaves.outcome s).trans (hfinishes.prepared q hq)
  have hcommitOk : ∀ q ∈ a.all, ∀ s, (commitStage vc a q s).1 = .ok := fun q hq s =>
    (commitStage_behaves.outcome s).trans (hfinishes.committed q hq)
  unfold commit submit
  rw [hreaches.sanity, attempt_ok, lockall_eq, if_pos hreaches.locked]
  dsimp only
  rw [hreaches.checked, attempt_ok, Shop.start_of_none hreaches.started, attempt_ok]
  generalize hs₁ : ({ s.setLocks (s.locks.take a.all) with backups := some [] } : Shop P) = s₁
  have ht₁ : s₁.csn p = some t ∧ s₁.name p = s.name p := by
    rw [← hs₁]
    exact ⟨ht, rfl⟩
  -- the number is given in the preparation of the package
  obtain ⟨s₂, hframe₂, hframe₃⟩ := Stage.each_around hprepareOk
    (fun _ => frames_prepareStage) a.all_nodup hmem s₁
  have ht₂ : s₂.csn p = some t := by
    rw [Shop.csn, hframe₂.name, hframe₂.value]
    exact ht₁.1
  obtain ⟨hvalue, hname⟩ := prepareStage_value hp hstarts ht₂ hrevision hbound
  rw [Stage.each_ok hprepareOk, attempt_ok, hfinishes.proceed]
  simp only [Bool.not_true, Bool.false_eq_true, if_false]
  generalize (Stage.each (prepareStage vc a) a.all s₁).2 = s₃ at hframe₃ ⊢
  -- and saved in its commit
  obtain ⟨s₄, hframe₄, hframe₅⟩ := Stage.each_around hcommitOk
    (fun _ => frames_commitStage) a.all_nodup hmem s₃
  obtain ⟨hvalue', hsaved', hname'⟩ :=
    commitStage_saved (s := s₄) hp hstarts.1 (hfinishes.committed p hmem)
  rw [Stage.each_ok hcommitOk, attempt_ok, hfinishes.commits, if_pos rfl]
  generalize (Stage.each (commitStage vc a) a.all s₃).2 = s₅ at hframe₅ ⊢
  have hvalue₅ : s₅.value p = stem t ++ Nat.toDigits 10 (serial t + 1) := by
    rw [hframe₅.value, hvalue', hframe₄.value, hframe₃.value, hvalue]
  have hname₅ : s₅.name p = s.name p := by
    rw [hframe₅.name, hname', hframe₄.name, hframe₃.name, hname, hframe₂.name, ht₁.2]
  have hcsn : isCsn t = true := readCsn_eq_some ht
  refine ⟨rfl, hmem, hstarts.1, ?_, ?_, hname₅⟩
  · have hread : readCsn (s₅.name p) (s₅.value p) =
        some (stem t ++ Nat.toDigits 10 (serial t + 1)) := by
      rw [hvalue₅]
      exact readCsn_of_isCsn (isCsn_renumber hcsn _)
    show (readCsn (s₅.name p) (s₅.value p)).map serial = _
    rw [hread, Option.map_some, serial_renumber hcsn]
  · show s₅.saved p = s₅.value p
    rw [hframe₅.saved, hframe₅.value, hsaved', hvalue']

/-! ### Runs -/

/-- The number that a successful attempt commits a package with. -/
def Attempt.uses (vc : P → Vcs) (a : Attempt P) (p : P) (s : Shop P) : Option Nat :=
  if (commit vc a s).1 = .returned true ∧ a.all.contains p ∧ a.needed p then
    number (commit vc a s).2 p
  else none

/-- An attempt to commit, and the number that it uses for a package. -/
def Commits (vc : P → Vcs) (p : P) (s : Shop P) (l : Attempt P × Option Nat) (t : Shop P) : Prop :=
  (commit vc l.1 s).2 = t ∧ l.2 = l.1.uses vc p s

/-- Once the attempt has given the package its number, it succeeds; the number is the next one of
a Subversion package, too, and fits a machine word. -/
def NumberKept (vc : P → Vcs) (p : P) (s : Shop P) (l : Attempt P × Option Nat) : Prop :=
  l.1.Reaches vc p s → l.1.Finishes vc ∧
    (vc p = .svn → l.1.revision p = number s p) ∧ ∀ n, number s p = some n → n + 1 < 2 ^ 64

/-- The numbers used are consecutive, and the number of the package is the last one, in the object
and in the file. An attempt that fails next leaves it as it is. -/
structure Consecutive (step : Shop P → Attempt P × Option Nat → Shop P → Prop) (vc : P → Vcs)
    (p : P) (n : Nat) (s₀ : Shop P) (trace : List (Attempt P × Option Nat)) (s : Shop P) :
    Prop where
  numbers : trace.filterMap Prod.snd = List.range' (n + 1) (trace.filterMap Prod.snd).length
  number : number s p = some (n + (trace.filterMap Prod.snd).length)
  saved : s.saved p = if trace.filterMap Prod.snd = [] then s₀.saved p else s.value p
  failed : ∀ l t, step s l t →
    (commit vc l.1 s).1 ≠ .returned true → t.csn p = s.csn p ∧ t.saved p = s.saved p

theorem commits_step {s t : Shop P} {l : Attempt P × Option Nat} {n : Nat}
    (hp : (vc p).pushes = false) (hn : number s p = some n)
    (hstep : Lts.guarded (NumberKept vc p) (Commits vc p) s l t) :
    l.2 = some (n + 1) ∧ (commit vc l.1 s).1 = .returned true ∧ Numbered p (n + 1) s t ∨
      l.2 = none ∧ Untouched p s t := by
  obtain ⟨hkept, rfl, huses⟩ := hstep
  obtain ⟨csn, hcsn, rfl⟩ := Option.map_eq_some_iff.mp hn
  by_cases hreaches : l.1.Reaches vc p s
  · obtain ⟨hfinishes, hrevision, hbound⟩ := hkept hreaches
    rw [hn] at hrevision
    obtain ⟨hsuccess, hmem, hneeded, hnumbered⟩ :=
      commit_numbered hp hreaches hfinishes hcsn hrevision (hbound _ hn)
    left
    refine ⟨?_, hsuccess, hnumbered⟩
    rw [huses, Attempt.uses, if_pos ⟨hsuccess, by simpa using hmem, hneeded⟩, hnumbered.number]
  · obtain ⟨huntouched, hneeded⟩ := commit_leaves hp hreaches
    right
    refine ⟨?_, huntouched⟩
    rw [huses, Attempt.uses, if_neg]
    rintro ⟨hsuccess, hmem, hneeds⟩
    rw [hneeded hsuccess (by simpa using hmem)] at hneeds
    cases hneeds

theorem csn_consecutive {s₀ s : Shop P} {n : Nat} {trace : List (Attempt P × Option Nat)}
    (hp : (vc p).pushes = false) (hn : number s₀ p = some n)
    (run : Lts.Run (Lts.guarded (NumberKept vc p) (Commits vc p)) s₀ trace s) :
    Consecutive (Lts.guarded (NumberKept vc p) (Commits vc p)) vc p n s₀ trace s := by
  have hfailed : ∀ {s m}, number s p = some m → ∀ l t,
      Lts.guarded (NumberKept vc p) (Commits vc p) s l t →
      (commit vc l.1 s).1 ≠ .returned true → t.csn p = s.csn p ∧ t.saved p = s.saved p := by
    intro s m hm l t hstep hfails
    rcases commits_step hp hm hstep with ⟨-, hsuccess, -⟩ | ⟨-, huntouched⟩
    · exact absurd hsuccess hfails
    · rw [Shop.csn, huntouched.name, huntouched.value]
      exact ⟨rfl, huntouched.saved⟩
  induction run with
  | nil => exact ⟨rfl, hn, rfl, hfailed hn⟩
  | @snoc trace s t l _ hstep ih =>
    rcases commits_step hp ih.number hstep with ⟨huses, -, hnumbered⟩ | ⟨huses, huntouched⟩
    · have hfilter : (trace ++ [l]).filterMap Prod.snd =
          trace.filterMap Prod.snd ++ [n + (trace.filterMap Prod.snd).length + 1] := by
        simp [huses]
      have hnumber : number t p = some (n + ((trace ++ [l]).filterMap Prod.snd).length) := by
        rw [hnumbered.number, hfilter, List.length_append, List.length_singleton, Nat.add_assoc]
      refine ⟨?_, hnumber, ?_, hfailed hnumber⟩
      · rw [hfilter, List.length_append, List.length_singleton, List.range'_1_concat, ← ih.numbers,
          Nat.add_right_comm]
      · rw [hfilter, if_neg (by simp), hnumbered.saved]
    · have hfilter : (trace ++ [l]).filterMap Prod.snd = trace.filterMap Prod.snd := by
        simp [huses]
      have hnumber : number t p = some (n + ((trace ++ [l]).filterMap Prod.snd).length) := by
        rw [number, Shop.csn, huntouched.name, huntouched.value, hfilter]
        exact ih.number
      refine ⟨?_, hnumber, ?_, hfailed hnumber⟩
      · rw [hfilter]
        exact ih.numbers
      · rw [hfilter, huntouched.saved, huntouched.value]
        exact ih.saved

/-- A commit of the CVS package alone, in which nothing goes wrong, if the user wants it. -/
def cvsCommit (proceed : Bool) : Attempt Unit where
  self := ()
  onlySelf := true
  dependents := []
  nodup := List.nodup_nil
  isprivate _ := true
  service := granting
  sanity := .ok
  check _ := .ok
  needed _ := true
  gold _ := .ok
  wanted _ := .ok
  results _ := .ok
  revision _ := none
  mytags _ := .ok
  changes _ := .ok
  ipchist _ := .ok
  proceed := proceed
  upload _ := {}
  push _ := .ok
  regtest _ := .ok
  abortSucceeds := true
  commitSucceeds := true

theorem csn_consecutive_once :
    Consecutive (Lts.guarded (NumberKept (fun _ => .cvs) ()) (Commits (fun _ => .cvs) ()))
      (fun _ => .cvs) () 7 cvsShop [(cvsCommit true, some 8)]
      (commit (fun _ => .cvs) (cvsCommit true) cvsShop).2 := by
  apply csn_consecutive (by decide) (by decide)
  apply Lts.Run.single
  refine ⟨fun _ => ⟨⟨fun _ _ => rfl, rfl, fun _ _ => rfl, rfl⟩, ?_, ?_⟩, rfl, by decide⟩
  · intro h
    cases h
  · intro n hn
    have h7 : number cvsShop () = some 7 := by decide
    obtain rfl : 7 = n := Option.some.inj (h7.symm.trans hn)
    decide

/-- The user does not want to commit once the number is given. -/
theorem not_csn_consecutive : ¬ ∀ (vc : Unit → Vcs) (s₀ s : Shop Unit) (n : Nat)
    (trace : List (Attempt Unit × Option Nat)), (vc ()).pushes = false →
    number s₀ () = some n → Lts.Run (Commits vc ()) s₀ trace s →
    Consecutive (Commits vc ()) vc () n s₀ trace s := by
  intro h
  have hconsecutive := h (fun _ => .cvs) cvsShop cvsShop 7 [] (by decide) (by decide) .nil
  have hfailed := hconsecutive.failed (cvsCommit false, none)
    (commit (fun _ => .cvs) (cvsCommit false) cvsShop).2 ⟨rfl, by decide⟩ (by decide)
  have hchanged : (commit (fun _ => .cvs) (cvsCommit false) cvsShop).2.csn () ≠ cvsShop.csn () := by
    decide
  exact hchanged hfailed.1

end Awb.Package
