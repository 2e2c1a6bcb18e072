import Awb.Package.Branch

/-! When an operation returns with the locks released that it took. -/

namespace Awb.Package
open Stage Locks

variable {P : Type}

/-- A stage whose outcome does not depend on the packages, and what it makes of the locks. -/
structure Behaves (f : Stage P) (o : Outcome) (g : Locks P → Locks P) : Prop where
  outcome : ∀ s, (f s).1 = o
  locks : ∀ s, (f s).2.locks = g s.locks

namespace Behaves
variable {f f' : Stage P} {o o' : Outcome} {g g' : Locks P → Locks P} {t : List Char}

theorem ask (o : Outcome) : Behaves (Stage.ask (P := P) o) o id where
  outcome _ := rfl
  locks _ := rfl

theorem andThen (hf : Behaves f o g) (hf' : Behaves f' o' g') :
    Behaves (f.andThen f') (o.andThen o') (if o = .ok then g' ∘ g else g) := by
  have hcases : ∀ s, ((f.andThen f') s).1 = o.andThen o' ∧
      ((f.andThen f') s).2.locks = (if o = .ok then g' ∘ g else g) s.locks := by
    intro s
    have ho : (f s).1 = o := hf.outcome s
    have hk : (f s).2.locks = g s.locks := hf.locks s
    cases hs : f s with
    | mk o₁ s₁ =>
      rw [hs] at ho hk
      obtain rfl : o₁ = o := ho
      have hk₁ : s₁.locks = g s.locks := hk
      cases o₁ <;> simp [Stage.andThen, hs, Outcome.andThen, hf'.outcome, hf'.locks, hk₁]
  exact ⟨fun s => (hcases s).1, fun s => (hcases s).2⟩

/-- Stages that leave the locks alone. -/
theorem andThen_id (hf : Behaves f o id) (hf' : Behaves f' o' id) :
    Behaves (f.andThen f') (o.andThen o') id := by
  have h := hf.andThen hf'
  rwa [Function.comp_id, ite_self] at h

theorem each {f : P → Stage P} {o : P → Outcome} (hf : ∀ p, Behaves (f p) (o p) id)
    (ps : List P) : Behaves (Stage.each f ps) (.seq (ps.map o)) id := by
  induction ps with
  | nil => exact .ask .ok
  | cons p ps ih => exact (hf p).andThen_id ih

end Behaves

variable [DecidableEq P] {vc : P → Vcs} {a : Attempt P} {p : P}

/-- The lock of a package is to be kept, if any. -/
def keepOption (kept : Option P) (k : Locks P) : Locks P :=
  match kept with
  | none => k
  | some p => k.keep p

/-- The first package whose stage is not successful, if its lock is to be kept. -/
def keeper (o : P → Outcome) (aborts : P → Bool) (ps : List P) : Option P :=
  (ps.find? fun p => o p ≠ .ok).filter aborts

omit [DecidableEq P] in
theorem keeper_cons (o : P → Outcome) (aborts : P → Bool) (p : P) (ps : List P) :
    keeper o aborts (p :: ps) =
      if o p = .ok then keeper o aborts ps else if aborts p then some p else none := by
  unfold keeper
  by_cases hp : o p = .ok <;> simp [hp, Option.filter]

theorem Behaves.each_keep {f : P → Stage P} {o : P → Outcome} {aborts : P → Bool}
    (haborts : ∀ p, o p = .ok → aborts p = false)
    (hf : ∀ p, Behaves (f p) (o p) (keepOption (if aborts p then some p else none)))
    (ps : List P) :
    Behaves (Stage.each f ps) (.seq (ps.map o)) (keepOption (keeper o aborts ps)) := by
  induction ps with
  | nil => exact .ask .ok
  | cons p ps ih =>
    have h := (hf p).andThen ih
    rw [keeper_cons]
    by_cases hp : o p = .ok
    · rw [if_pos hp, haborts p hp] at h
      rwa [if_pos hp]
    · rw [if_neg hp] at h
      rwa [if_neg hp]

theorem updateCsns_behaves : Behaves (updateCsns vc a p) (a.mytags p) id where
  outcome _ := rfl
  locks s := by
    unfold updateCsns Shop.incrementCsn Shop.setCsn Shop.addFile
    dsimp only [id_eq]
    repeat' split
    all_goals rfl

namespace Attempt

/-- How the preparation of a package ends. -/
def prepared (vc : P → Vcs) (a : Attempt P) (p : P) : Outcome :=
  if !a.needed p then .ok
  else .seq [a.gold p, a.wanted p, a.results p,
    if (vc p).pushes then .ok else (a.mytags p).andThen (a.changes p), a.ipchist p]

end Attempt

theorem prepareStage_behaves : Behaves (prepareStage vc a p) (a.prepared vc p) id := by
  unfold prepareStage Attempt.prepared
  split
  · exact .ask .ok
  · simp only [Outcome.seq_cons, Outcome.seq_nil, Outcome.andThen_ok]
    refine (Behaves.ask _).andThen_id ((Behaves.ask _).andThen_id ((Behaves.ask _).andThen_id
      (Behaves.andThen_id ?_ (.ask _))))
    split
    · exact .ask .ok
    · exact updateCsns_behaves.andThen_id (.ask _)

/-- The commands of the version control system succeed, or the user sees to it. -/
def uploaded (kind : Vcs) (upload : Upload) : Bool :=
  match kind with
  | .cvs => dilemmas upload.commit && dilemmas upload.tag
  | .svn => dilemmas upload.commit
  | _ => false

/-- The user aborts a command, and asks to keep the lock. -/
def aborts (kind : Vcs) (upload : Upload) : Bool :=
  (kind = .cvs || kind = .svn) && !uploaded kind upload

theorem commitArchive_behaves {upload : Upload} : Behaves (commitArchive vc upload p)
    (.ofBool (uploaded (vc p) upload))
    (keepOption (if aborts (vc p) upload then some p else none)) := by
  have hcases : ∀ s, (commitArchive vc upload p s).1 = .ofBool (uploaded (vc p) upload) ∧
      (commitArchive vc upload p s).2.locks =
        keepOption (if aborts (vc p) upload then some p else none) s.locks := by
    intro s
    unfold commitArchive aborts uploaded
    cases vc p <;> cases dilemmas upload.commit <;> cases dilemmas upload.tag <;> exact ⟨rfl, rfl⟩
  exact ⟨fun s => (hcases s).1, fun s => (hcases s).2⟩

namespace Attempt

def committed (vc : P → Vcs) (a : Attempt P) (p : P) : Outcome :=
  if !a.needed p && !(vc p).pushes then .ok
  else (Outcome.ofBool (uploaded (vc p) (a.upload p))).andThen (a.regtest p)

/-- The user aborts the commit of a package. -/
def commitAborts (vc : P → Vcs) (a : Attempt P) (p : P) : Bool :=
  (a.needed p || (vc p).pushes) && aborts (vc p) (a.upload p)

def pushed (vc : P → Vcs) (a : Attempt P) (p : P) : Outcome :=
  if !(vc p).pushes then .die
  else if !a.needed p then .ok
  else (a.push p).andThen (a.regtest p)

end Attempt

theorem commitStage_behaves : Behaves (commitStage vc a p) (a.committed vc p)
    (keepOption (if a.commitAborts vc p then some p else none)) := by
  unfold commitStage Attempt.committed Attempt.commitAborts
  cases hneeded : a.needed p || (vc p).pushes with
  | false =>
    rw [Bool.or_eq_false_iff] at hneeded
    simp only [hneeded.1, hneeded.2, Bool.not_false, Bool.and_self, Bool.false_and]
    exact .ask .ok
  | true =>
    have hskip : (!a.needed p && !(vc p).pushes) = false := by
      rw [← Bool.not_or, hneeded, Bool.not_true]
    rw [hskip, Bool.true_and, if_neg Bool.false_ne_true, if_neg Bool.false_ne_true]
    have harchive : Behaves (commitArchive vc (a.upload p) p) _ _ := commitArchive_behaves
    have h := harchive.andThen (.ask (a.regtest p))
    rwa [Function.id_comp, ite_self] at h

theorem pushStage_behaves : Behaves (pushStage vc a p) (a.pushed vc p) id := by
  unfold pushStage Attempt.pushed
  split_ifs
  · exact .ask .die
  · exact .ask .ok
  · have hpush : Behaves (pushArchive a p) (a.push p) id := ⟨fun _ => rfl, fun _ => rfl⟩
    exact hpush.andThen_id (.ask _)

omit [DecidableEq P] in
theorem committed_aborts (h : a.committed vc p = .ok) : a.commitAborts vc p = false := by
  unfold Attempt.committed at h
  unfold Attempt.commitAborts aborts
  split at h
  · rename_i hskip
    rw [← Bool.not_or, Bool.not_eq_true'] at hskip
    rw [hskip, Bool.false_and]
  · rw [Outcome.andThen_eq_ok, Outcome.ofBool_eq_ok] at h
    rw [h.1, Bool.not_true, Bool.and_false, Bool.and_false]

/-- The call returns, and of the locks that it took only those are set that are to be kept. -/
def Unlocked (k₀ : Locks P) (r : End × Shop P) : Prop := r.1 ≠ .died ∧ Released k₀ r.2.locks

/-- The lock service grants every release that `unlockall` asks it for. -/
def Locks.Unlocks (service : Service) (k : Locks P) (kept : Option P) (ps : List P) : Prop :=
  k.nolocks = true ∨
    ∀ p ∈ ps, k.keepLock p = true ∨ kept = some p ∨ service.unlock (k.lockname p) = true

section
variable {service : Service} {k : Locks P} {ps : List P} {kept : Option P}

omit [DecidableEq P] in
theorem not_unlocked_died {k₀ : Locks P} {s : Shop P} : ¬ Unlocked k₀ (.died, s) := fun h => h.1 rfl

omit [DecidableEq P] in
theorem take_keepLock : (k.take ps).keepLock = k.keepLock ∧ (k.take ps).asked = k.asked := by
  unfold take
  split_ifs <;> exact ⟨rfl, rfl⟩

theorem keepOption_keepLock : (keepOption kept k).keepLock p = true ↔
    k.keepLock p = true ∨ kept = some p := by
  cases kept with
  | none => simp [keepOption]
  | some q =>
    by_cases hpq : p = q
    · simp [keepOption, keep, hpq]
    · simp [keepOption, keep, Function.update_of_ne hpq, Ne.symm hpq]

omit [DecidableEq P] in
theorem taken_of_lockables (h : lockables service k [] ps = ps) : Taken k ps (k.take ps) := by
  have htaken : Taken k _ (k.take (lockables service k [] ps)) := taken_lockables
  rwa [h] at htaken

theorem released_unlockall (htaken : Taken k ps (k.take ps)) (hasked : k.asked = [])
    (hps : ps.Nodup) (hkept : ∀ q, kept = some q → q ∈ ps) :
    Released k ((keepOption kept (k.take ps)).unlockall service ps) ↔
      k.Unlocks service kept ps := by
  have hlockname : (keepOption kept (k.take ps)).lockname = (k.take ps).lockname := by
    cases kept <;> rfl
  have hnolocks : (keepOption kept (k.take ps)).nolocks = (k.take ps).nolocks := by
    cases kept <;> rfl
  have hheld : (keepOption kept (k.take ps)).held = (k.take ps).held := by
    cases kept <;> rfl
  have htaken' : Taken k ps (keepOption kept (k.take ps)) :=
    ⟨hlockname.trans htaken.lockname, hnolocks.trans htaken.nolocks,
      fun l => hheld ▸ htaken.held l, htaken.fresh, htaken.distinct⟩
  have hask : ∀ l ∈ (keepOption kept (k.take ps)).asked, ∃ p ∈ ps,
      (keepOption kept (k.take ps)).keepLock p = true ∧
        l = (keepOption kept (k.take ps)).lockname p := by
    intro l hl
    cases hq : kept with
    | none =>
      rw [hq, keepOption, take_keepLock.2, hasked] at hl
      cases hl
    | some q =>
      rw [hq, keepOption, keep, take_keepLock.2, hasked, List.mem_singleton] at hl
      exact ⟨q, hkept q hq, keepOption_keepLock.mpr (Or.inr rfl), hl⟩
  rw [htaken'.released_unlockall hask hps, Unlocks]
  simp only [keepOption_keepLock, take_keepLock.1, or_assoc]

end

namespace Attempt

omit [DecidableEq P] in
theorem all_nodup (a : Attempt P) : a.all.Nodup := by
  unfold Attempt.all
  split_ifs
  · exact List.nodup_singleton _
  · exact a.nodup.filter _

/-- Every step of `submit` leads to a release that the lock service grants. -/
def Submits (vc : P → Vcs) (a : Attempt P) (published : P → Outcome) (kept : Option P)
    (unprepared : Prop) (s : Shop P) : Prop :=
  let locked := lockables a.service s.locks [] a.all
  if locked ≠ a.all then s.locks.Unlocks a.service none locked
  else
    (checkAll a.check a.all false).Leads (s.locks.Unlocks a.service none a.all) <|
    s.backups = none ∧
    (Outcome.seq (a.all.map (a.prepared vc))).Leads unprepared (
      if !a.proceed then s.locks.Unlocks a.service none a.all ∧ a.abortSucceeds = true
      else (Outcome.seq (a.all.map published)).Leads
        (s.locks.Unlocks a.service kept a.all ∧ a.abortSucceeds = true)
        (s.locks.Unlocks a.service none a.all ∧ a.commitSucceeds = true))

end Attempt

theorem unlocked_abort {k₀ : Locks P} {s : Shop P} {succeeds : Bool} :
    Unlocked k₀ (s.abort succeeds) ↔ Released k₀ s.locks ∧ succeeds = true := by
  cases succeeds <;> simp [Unlocked, Shop.abort]

theorem submit_unlocked {s : Shop P} {publish : P → Stage P} {published : P → Outcome}
    {kept : Option P} {unprepared : Shop P → End × Shop P} {U : Prop}
    (hpublish : Behaves (Stage.each publish a.all) (.seq (a.all.map published)) (keepOption kept))
    (hkept : ∀ q, kept = some q → q ∈ a.all)
    (hok : Outcome.seq (a.all.map published) = .ok → kept = none) (hasked : s.locks.asked = [])
    (hunprepared : lockables a.service s.locks [] a.all = a.all → ∀ s' : Shop P,
      s'.locks = s.locks.take a.all → (Unlocked s.locks (unprepared s') ↔ U)) :
    Unlocked s.locks (submit vc a publish unprepared s) ↔ a.Submits vc published kept U s := by
  have hreleased : ∀ kept' : Option P, (∀ q, kept' = some q → q ∈ a.all) →
      lockables a.service s.locks [] a.all = a.all →
      (Released s.locks ((keepOption kept' (s.locks.take a.all)).unlockall a.service a.all) ↔
        s.locks.Unlocks a.service kept' a.all) := by
    intro kept' hkept' hall
    exact released_unlockall (taken_of_lockables hall) hasked a.all_nodup hkept'
  unfold submit Attempt.Submits
  rw [lockall_eq]
  by_cases hall : lockables a.service s.locks [] a.all = a.all
  · have hnone := hreleased none (fun _ h => nomatch h) hall
    rw [if_pos hall]
    dsimp only
    rw [if_neg (not_not.mpr hall), attempt_iff not_unlocked_died]
    apply Outcome.leads_congr
    · intro _
      rw [Unlocked, ← hnone]
      exact and_iff_right (by simp)
    · intro _
      have hprepare : Behaves (Stage.each (prepareStage vc a) a.all) _ id :=
        .each (fun _ => prepareStage_behaves) a.all
      cases hstarted : s.backups with
      | some backups =>
        rw [Shop.start_of_some hstarted]
        simp [not_unlocked_died]
      | none =>
        rw [Shop.start_of_none hstarted]
        generalize hs₁ : ({ s.setLocks (s.locks.take a.all) with backups := some [] } : Shop P) = s₁
        have hlocks₁ : s₁.locks = s.locks.take a.all := by rw [← hs₁]; rfl
        simp only [attempt_ok, true_and]
        have hlocks₂ := (hprepare.locks s₁).trans hlocks₁
        rw [attempt_iff not_unlocked_died, hprepare.outcome]
        generalize (Stage.each (prepareStage vc a) a.all s₁).2 = s₂ at hlocks₂
        apply Outcome.leads_congr
        · exact fun _ => hunprepared hall s₂ hlocks₂
        · intro _
          cases a.proceed with
          | false =>
            simp only [Bool.not_false, if_true]
            rw [unlocked_abort, ← hnone, Shop.unlockall, hlocks₂]
            rfl
          | true =>
            simp only [Bool.not_true, Bool.false_eq_true, if_false]
            have hlocks₃ : (Stage.each publish a.all s₂).2.locks =
                keepOption kept (s.locks.take a.all) := by
              rw [hpublish.locks, hlocks₂]
            rw [attempt_iff not_unlocked_died, hpublish.outcome]
            apply Outcome.leads_congr
            · intro _
              rw [unlocked_abort, ← hreleased kept hkept hall, Shop.unlockall, hlocks₃]
              rfl
            · intro hpublished
              obtain rfl := hok hpublished
              cases a.commitSucceeds with
              | false => simp [Unlocked]
              | true =>
                simp only [if_true, and_true, ← hnone]
                rw [Unlocked, Shop.unlockall, Shop.commitTransaction, hlocks₃]
                exact and_iff_right (by simp)
  · have hstarts : (lockables a.service s.locks [] a.all).Nodup :=
      a.all_nodup.sublist lockables_prefix.sublist
    have hnone : Released s.locks ((keepOption none (s.locks.take _)).unlockall a.service _) ↔ _ :=
      released_unlockall taken_lockables hasked hstarts fun _ h => nomatch h
    rw [if_neg hall]
    dsimp only
    rw [if_pos hall, ← hnone]
    exact and_iff_right (by simp)

/-- The commit leads to no lock that stays. -/
def Attempt.Commits (vc : P → Vcs) (a : Attempt P) (s : Shop P) : Prop :=
  a.sanity.Leads True <|
  a.Submits vc (a.committed vc) (keeper (a.committed vc) (a.commitAborts vc) a.all)
    (s.locks.Unlocks a.service none a.all ∧ a.abortSucceeds = true) s

/-- The push leads to no lock that stays: no package fails to be prepared. -/
def Attempt.Pushes (vc : P → Vcs) (a : Attempt P) (s : Shop P) : Prop :=
  a.sanity.Leads True <|
  a.Submits vc (a.pushed vc) none False s

omit [DecidableEq P] in
theorem keeper_mem {o : P → Outcome} {aborts : P → Bool} {ps : List P} {q : P}
    (h : keeper o aborts ps = some q) : q ∈ ps := by
  obtain ⟨hfind, -⟩ := Option.filter_eq_some_iff.mp h
  exact List.mem_of_find?_eq_some hfind

omit [DecidableEq P] in
theorem keeper_none {o : P → Outcome} {aborts : P → Bool} {ps : List P}
    (h : Outcome.seq (ps.map o) = .ok) : keeper o aborts ps = none := by
  rw [Outcome.seq_eq_ok] at h
  have hfind : ps.find? (fun p => o p ≠ .ok) = none := by
    rw [List.find?_eq_none]
    intro p hp
    simpa using h (o p) (List.mem_map_of_mem hp)
  rw [keeper, hfind]
  rfl

omit [DecidableEq P] in
/-- Nothing was locked. -/
theorem unlocked_unchanged {s : Shop P} (success : Bool) :
    Unlocked s.locks (.returned success, s) := by
  constructor
  · simp
  · intro l hl
    exact Or.inl hl

theorem commit_unlocked {s : Shop P} (hasked : s.locks.asked = []) :
    Unlocked s.locks (commit vc a s) ↔ a.Commits vc s := by
  rw [commit, attempt_iff not_unlocked_died]
  apply Outcome.leads_congr
  · exact fun _ => iff_true_intro (unlocked_unchanged false)
  · intro _
    have hcommit : Behaves (Stage.each (commitStage vc a) a.all) _ _ :=
      .each_keep (fun _ => committed_aborts) (fun _ => commitStage_behaves) a.all
    apply submit_unlocked hcommit (fun _ => keeper_mem) keeper_none hasked
    intro hall s' hlocks
    have hnone : Released s.locks ((keepOption none (s.locks.take _)).unlockall a.service _) ↔ _ :=
      released_unlockall (taken_of_lockables hall) hasked a.all_nodup fun _ h => nomatch h
    rw [unlocked_abort, ← hnone, Shop.unlockall, hlocks]
    rfl

theorem pushPackage_unlocked {s : Shop P} (hasked : s.locks.asked = []) :
    Unlocked s.locks (pushPackage vc a s) ↔ a.Pushes vc s := by
  rw [pushPackage, attempt_iff not_unlocked_died]
  apply Outcome.leads_congr
  · exact fun _ => iff_true_intro (unlocked_unchanged false)
  · intro _
    have hpush : Behaves (Stage.each (pushStage vc a) a.all) _ id :=
      .each (fun _ => pushStage_behaves) a.all
    have hnone : Behaves (Stage.each (pushStage vc a) a.all) _ (keepOption none) := hpush
    apply submit_unlocked hnone (fun _ h => nomatch h) (fun _ => rfl) hasked
    intro _ s' _
    exact iff_of_false not_unlocked_died id

/-! ### Operations on one package -/

section
variable {service : Service} {k : Locks P} {name t : List Char} {s s' : Shop P}

omit [DecidableEq P] in
theorem released_release {k' : Locks P} (hfresh : k.Fresh name)
    (hheld : k'.held = (k.hold name).held) (hnolocks : k'.nolocks = k.nolocks)
    (hasked : k'.asked = []) :
    Released k (k'.releaseLock service name).2 ↔ k.granted service name = true := by
  unfold granted
  cases hk : k.nolocks with
  | true =>
    rw [Bool.true_or, eq_self, iff_true, releaseLock, hnolocks, hk, if_pos rfl]
    rw [released_hold hfresh hheld]
    exact Or.inl hk
  | false =>
    have hnot : name ∉ k.held := hfresh.resolve_left (by simp [hk])
    have hheld' : k'.held = name :: k.held := by rw [hheld, hold, hk]; rfl
    rw [Bool.false_or, Released]
    constructor
    · intro h
      by_contra hrefused
      have hname : name ∈ (k'.releaseLock service name).2.held := by
        rw [mem_held_releaseLock, hheld']
        exact ⟨List.mem_cons_self, fun _ => Or.inr (by simpa using hrefused)⟩
      rcases h name hname with hold | hask
      · exact hnot hold
      · unfold releaseLock at hask
        split_ifs at hask <;> simp [hasked] at hask
    · intro hunlock l hl
      rw [mem_held_releaseLock, hheld', hnolocks, hk, hunlock] at hl
      rcases List.mem_cons.mp hl.1 with rfl | hold
      · simpa using hl.2 rfl
      · exact Or.inl hold

/-- A number for a new branch starts with letters. -/
theorem upgrade_csn {name t : List Char} :
    upgrade name ("CSN-".toList ++ t) = "CSN-".toList ++ t := by
  apply if_neg
  simp [isNumber]

theorem startCsn_behaves : Behaves (Shop.startCsn p ("CSN-".toList ++ t))
    (.ofBool (isCsn ("CSN-".toList ++ t))) id := by
  have hcases : ∀ s, (Shop.startCsn p ("CSN-".toList ++ t) s).1 =
      .ofBool (isCsn ("CSN-".toList ++ t)) ∧
      (Shop.startCsn p ("CSN-".toList ++ t) s).2.locks = s.locks := by
    intro s
    unfold Shop.startCsn Shop.setCsn
    rw [upgrade_csn]
    cases isCsn ("CSN-".toList ++ t) <;> exact ⟨rfl, rfl⟩
  exact ⟨fun s => (hcases s).1, fun s => (hcases s).2⟩

end

omit [DecidableEq P] in
/-- A stage that leaves the locks alone, before another one. -/
theorem Behaves.after_id {f f' : Stage P} {o o' : Outcome} {g' : Locks P → Locks P}
    (hf : Behaves f o id) (hf' : Behaves f' o' g') :
    Behaves (f.andThen f') (o.andThen o') (if o = .ok then g' else id) := hf.andThen hf'

/-- What comes before the commit of a release. -/
def Release.edited (a : Release P) (branchname : List Char) : Outcome :=
  .seq [.ofBool a.tagBranch, .ofBool a.update,
    .ofBool (isCsn ("CSN-".toList ++ (branchname ++ "-1".toList))), .ofBool a.mytags,
    .ofBool a.mergetags, .ofBool a.addMergePoints, a.edit.ignored]

theorem releaseStage_behaves {a : Release P} {branchname : List Char} :
    Behaves (releaseStage vc a branchname)
      ((a.edited branchname).andThen
        ((Outcome.ofBool (uploaded (vc a.package) a.upload)).andThen (.ofBool a.tagPatch)))
      (if a.edited branchname = .ok then
        keepOption (if aborts (vc a.package) a.upload then some a.package else none) else id) := by
  have hedit : Behaves
      ((Stage.ask (.ofBool a.tagBranch)).andThen <| (Stage.ask (.ofBool a.update)).andThen <|
        (Shop.startCsn a.package ("CSN-".toList ++ (branchname ++ "-1".toList))).andThen <|
        (Stage.ask (.ofBool a.mytags)).andThen <| (Stage.ask (.ofBool a.mergetags)).andThen <|
        (Stage.ask (.ofBool a.addMergePoints)).andThen (Stage.ask a.edit.ignored))
      (a.edited branchname) id := by
    simp only [Release.edited, Outcome.seq_cons, Outcome.seq_nil, Outcome.andThen_ok]
    exact (Behaves.ask _).andThen_id <| (Behaves.ask _).andThen_id <|
      startCsn_behaves.andThen_id <| (Behaves.ask _).andThen_id <| (Behaves.ask _).andThen_id <|
      (Behaves.ask _).andThen_id (.ask _)
  have harchive : Behaves ((commitArchive vc a.upload a.package).andThen
      (Stage.ask (.ofBool a.tagPatch))) _ _ := commitArchive_behaves.andThen (.ask _)
  rw [Function.id_comp, ite_self] at harchive
  have h := hedit.after_id harchive
  simp only [Stage.andThen_assoc] at h
  unfold releaseStage
  rwa [List.append_assoc]

/-- The release leads to no lock that stays. -/
def Release.Releases (vc : P → Vcs) (a : Release P) (s : Shop P) : Prop :=
  let lockname := s.locks.lockname a.package
  let granted := s.locks.granted a.service lockname
  let nothing := s.locks.nolocks && a.abortSucceeds
  vc a.package = .cvs → ∀ parts, versionParts a.version = some parts →
    let branchname := s.name a.package ++ "-V".toList ++ parts.1 ++ '_' :: parts.2
    a.repositoryDB.Leads True <|
    if a.mergePoints then True
    else
      (unusedName a.branchtags branchname).Leads True <|
      if !s.locks.free a.service lockname then True
      else
        a.upToDate.Leads granted <|
        if a.dependencies && !a.confirmed || !a.proceed then granted = true
        else
          s.backups = none ∧
          (a.edited branchname).Leads nothing (
            if !uploaded .cvs a.upload then a.abortSucceeds = true
            else (Outcome.ofBool a.tagPatch).Leads nothing (granted && a.commitSucceeds))

section
variable {service : Service} {k : Locks P} {name : List Char} {s : Shop P}

omit [DecidableEq P] in
theorem hold_lockname : (k.hold name).lockname = k.lockname := by
  unfold hold
  split_ifs <;> rfl

omit [DecidableEq P] in
theorem hold_asked : (k.hold name).asked = k.asked := by
  unfold hold
  split_ifs <;> rfl

omit [DecidableEq P] in
theorem hold_nolocks : (k.hold name).nolocks = k.nolocks := by
  unfold hold
  split_ifs <;> rfl

omit [DecidableEq P] in
/-- A lock that is left alone. -/
theorem unlocked_hold (hfresh : k.Fresh name) (hasked : k.asked = [])
    (hlocks : s.locks = k.hold name) : Released k s.locks ↔ k.nolocks = true := by
  rw [released_hold hfresh (by rw [hlocks]), hlocks, hold_asked, hasked]
  simp

omit [DecidableEq P] in
theorem released_kept (hfresh : k.Fresh name) {k' : Locks P}
    (hheld : k'.held = (k.hold name).held) (hname : name ∈ k'.asked) : Released k k' :=
  (released_hold hfresh hheld).mpr (Or.inr hname)

end

omit [DecidableEq P] in
theorem released_releaseLock (service : Service) {k : Locks P} {s : Shop P}
    (hfresh : k.Fresh (k.lockname p)) (hasked : k.asked = [])
    (hlocks : s.locks = k.hold (k.lockname p)) :
    Released k (s.releaseLock service p).locks ↔ k.granted service (k.lockname p) = true := by
  simp only [Shop.releaseLock, Shop.setLocks, hlocks, hold_lockname]
  exact released_release hfresh rfl hold_nolocks (hold_asked.trans hasked)

theorem releaseStage_unlocked {a : Release P} {branchname : List Char} {k : Locks P} {s : Shop P}
    (hvc : vc a.package = .cvs) (hfresh : k.Fresh (k.lockname a.package))
    (hasked : k.asked = []) (hlocks : s.locks = k.hold (k.lockname a.package)) :
    Unlocked k (attempt (releaseStage vc a branchname s).1 (releaseStage vc a branchname s).2
      ((releaseStage vc a branchname s).2.abort a.abortSucceeds)
      (if a.commitSucceeds then (.returned true,
        ((releaseStage vc a branchname s).2.releaseLock a.service a.package).commitTransaction)
      else (.died, (releaseStage vc a branchname s).2.releaseLock a.service a.package))) ↔
    (a.edited branchname).Leads (k.nolocks && a.abortSucceeds) (
      if !uploaded .cvs a.upload then a.abortSucceeds = true
      else (Outcome.ofBool a.tagPatch).Leads (k.nolocks && a.abortSucceeds)
        (k.granted a.service (k.lockname a.package) && a.commitSucceeds)) := by
  have hstage : Behaves (releaseStage vc a branchname) _ _ := releaseStage_behaves
  rw [hstage.outcome s]
  have hlocks' := hstage.locks s
  generalize (releaseStage vc a branchname s).2 = s' at hlocks' ⊢
  cases hedited : a.edited branchname with
  | die => simp [Outcome.andThen, Outcome.Leads, not_unlocked_died]
  | fail =>
    rw [hedited, if_neg (by simp), id, hlocks] at hlocks'
    simp only [Outcome.andThen, attempt_fail, unlocked_abort, unlocked_hold hfresh hasked hlocks']
    simp [Outcome.Leads]
  | ok =>
    rw [hedited, if_pos rfl, hvc, hlocks] at hlocks'
    rw [hvc]
    cases huploaded : uploaded .cvs a.upload with
    | false =>
      have haborts : aborts .cvs a.upload = true := by simp [aborts, huploaded]
      rw [haborts, if_pos rfl] at hlocks'
      have hreleased : Released k s'.locks := by
        rw [hlocks']
        refine released_kept hfresh ?_ ?_
        · rfl
        · simp [keepOption, keep, hold_lockname]
      simp [Outcome.andThen, Outcome.Leads, Outcome.ofBool, unlocked_abort, hreleased]
    | true =>
      have haborts : aborts .cvs a.upload = false := by simp [aborts, huploaded]
      rw [haborts, if_neg Bool.false_ne_true] at hlocks'
      have hlocks'' : s'.locks = k.hold (k.lockname a.package) := hlocks'
      cases a.tagPatch with
      | false =>
        simp only [Outcome.andThen, Outcome.ofBool, attempt_fail, unlocked_abort,
          unlocked_hold hfresh hasked hlocks'']
        simp [Outcome.Leads]
      | true =>
        have hrelease := released_releaseLock a.service hfresh hasked hlocks''
        cases a.commitSucceeds with
        | false => simp [Outcome.andThen, Outcome.Leads, Outcome.ofBool, not_unlocked_died]
        | true =>
          simp [Outcome.andThen, Outcome.Leads, Outcome.ofBool, Unlocked, Shop.commitTransaction,
            hrelease]

theorem release_unlocked {a : Release P} {s : Shop P} (hasked : s.locks.asked = []) :
    Unlocked s.locks (release vc a s) ↔ a.Releases vc s := by
  unfold release Release.Releases
  by_cases hvc : vc a.package = .cvs
  · rw [if_neg (not_not.mpr hvc)]
    cases hversion : versionParts a.version with
    | none => exact iff_of_true (unlocked_unchanged false) (fun _ _ h => nomatch h)
    | some parts =>
      obtain ⟨major, minor⟩ := parts
      simp only [hvc, Option.some.injEq, forall_eq', forall_const]
      rw [attempt_iff not_unlocked_died]
      refine Outcome.leads_congr (fun _ => iff_true_intro (unlocked_unchanged false)) fun _ => ?_
      cases a.mergePoints with
      | true => exact iff_true_intro (unlocked_unchanged false)
      | false =>
        simp only [Bool.false_eq_true, if_false]
        rw [attempt_iff not_unlocked_died]
        refine Outcome.leads_congr (fun _ => iff_true_intro (unlocked_unchanged false)) fun _ => ?_
        rw [acquireLock_eq]
        cases hfree : s.locks.free a.service (s.locks.lockname a.package) with
        | false => exact iff_true_intro (unlocked_unchanged false)
        | true =>
          have hlocks : (s.setLocks (s.locks.hold (s.locks.lockname a.package))).locks =
            s.locks.hold (s.locks.lockname a.package) := rfl
          have hrelease := released_releaseLock a.service (fresh_of_free hfree) hasked hlocks
          simp only [if_true, Bool.not_true, Bool.false_eq_true, if_false]
          rw [attempt_iff not_unlocked_died]
          apply Outcome.leads_congr
          · intro _
            rw [← hrelease]
            exact and_iff_right (by simp)
          · intro _
            cases a.dependencies && !a.confirmed || !a.proceed with
            | true =>
              simp only [if_true, ← hrelease]
              exact and_iff_right (by simp)
            | false =>
              simp only [Bool.false_eq_true, if_false]
              cases hbackups : s.backups with
              | some backups =>
                rw [Shop.start_of_some hbackups]
                simp [not_unlocked_died]
              | none =>
                rw [Shop.start_of_none hbackups]
                simp only [attempt_ok, true_and]
                exact releaseStage_unlocked hvc (fresh_of_free hfree) hasked rfl
  · rw [if_pos hvc]
    exact iff_of_true (unlocked_unchanged false) (fun h => absurd h hvc)

/-- The labelling leads to no lock that stays. -/
def Label.Labels (a : Label P) (s : Shop P) : Prop :=
  let lockname := s.locks.lockname a.package
  if a.labelname = ['0'] ∨ !isLabelname a.labelname then True
  else
    a.sanity.ignored.Leads True <|
    a.tags ≠ none ∧ ∀ tags, a.tags = some tags →
      if a.existing ≠ tags.contains a.labelname then True
      else if a.existing && a.applied then True
      else if !s.locks.free a.service lockname then True
      else
        a.upToDate.ignored.Leads True <|
        if !a.proceed && s.locks.granted a.service lockname then True
        else
          s.backups = none ∧
          a.copy.ignored.Leads True (a.commitSucceeds && s.locks.granted a.lastService lockname)

theorem Outcome.ignored_ne_fail (o : Outcome) : o.ignored ≠ .fail := by
  cases o <;> simp [ignored]

omit [DecidableEq P] in
/-- The labelling once the user wants it. -/
theorem labelled_unlocked {a : Label P} {s s₁ : Shop P} (hasked : s.locks.asked = [])
    (hfresh : s.locks.Fresh (s.locks.lockname a.package))
    (hs₁ : s.setLocks (s.locks.hold (s.locks.lockname a.package)) = s₁) :
    Unlocked s.locks (attempt s₁.start.1 s₁.start.2 (.died, s₁.start.2) <|
      attempt a.copy.ignored s₁.start.2 (.died, s₁.start.2) <|
      if !a.commitSucceeds then (.died, s₁.start.2)
      else (.returned true, s₁.start.2.commitTransaction.releaseLock a.lastService a.package)) ↔
    s.backups = none ∧ a.copy.ignored.Leads True
      (a.commitSucceeds && s.locks.granted a.lastService (s.locks.lockname a.package)) := by
  subst hs₁
  cases hbackups : s.backups with
  | some backups =>
    rw [Shop.start_of_some hbackups]
    simp [not_unlocked_died]
  | none =>
    rw [Shop.start_of_none hbackups, attempt_ok, attempt_iff not_unlocked_died, eq_self,
      true_and]
    refine Outcome.leads_congr (fun h => absurd h (Outcome.ignored_ne_fail _)) fun _ => ?_
    cases a.commitSucceeds with
    | false => simp [not_unlocked_died]
    | true =>
      rw [Bool.true_and]
      refine (and_iff_right (by simp)).trans ?_
      exact released_releaseLock a.lastService hfresh hasked rfl

omit [DecidableEq P] in
theorem label_unlocked {a : Label P} {s : Shop P} (hasked : s.locks.asked = []) :
    Unlocked s.locks (label a s) ↔ a.Labels s := by
  unfold label Label.Labels
  by_cases hname : a.labelname = ['0'] ∨ (!isLabelname a.labelname) = true
  · rw [if_pos hname, if_pos hname]
    exact iff_true_intro (unlocked_unchanged false)
  rw [if_neg hname, if_neg hname, attempt_iff not_unlocked_died]
  refine Outcome.leads_congr (fun _ => iff_true_intro (unlocked_unchanged false)) fun _ => ?_
  cases a.tags with
  | none => simp [not_unlocked_died]
  | some tags =>
    simp only [ne_eq, reduceCtorEq, not_false_eq_true, Option.some.injEq, forall_eq', true_and]
    by_cases hfound : ¬a.existing = tags.contains a.labelname
    · rw [if_pos hfound, if_pos hfound]
      exact iff_true_intro (unlocked_unchanged false)
    rw [if_neg hfound, if_neg hfound]
    cases a.existing && a.applied with
    | true => exact iff_true_intro (unlocked_unchanged true)
    | false =>
      simp only [Bool.false_eq_true, if_false]
      rw [acquireLock_eq]
      cases hfree : s.locks.free a.service (s.locks.lockname a.package) with
      | false => exact iff_true_intro (unlocked_unchanged false)
      | true =>
        have hfresh := fresh_of_free hfree
        simp only [if_true, Bool.not_true, Bool.false_eq_true, if_false]
        rw [attempt_iff not_unlocked_died]
        refine Outcome.leads_congr (fun h => absurd h (Outcome.ignored_ne_fail _)) fun _ => ?_
        cases a.proceed with
        | true =>
          simp only [if_true, Bool.not_true, Bool.false_and, Bool.false_eq_true, if_false]
          exact labelled_unlocked hasked hfresh rfl
        | false =>
          simp only [Bool.false_eq_true, if_false, Bool.not_false, Bool.true_and, Shop.setLocks,
            hold_lockname, releaseLock_hold hfresh]
          cases s.locks.granted a.service (s.locks.lockname a.package) with
          | true => exact iff_true_intro (unlocked_unchanged false)
          | false => exact labelled_unlocked hasked hfresh rfl

/-! ### `branch` -/

/-- What comes before the commit of a branch. -/
def Branch.renamed (a : Branch P) : Outcome :=
  .seq [.ofBool a.rename, .ofBool (isCsn (upgrade a.branchname ['1'])), .ofBool a.addPackage,
    .ofBool a.removePackage, .ofBool a.mytags, .ofBool a.mergetags, .ofBool a.addMergePoints]

/-- The lock of the branch leads to no lock that stays. -/
def Branch.OwnLocked (vc : P → Vcs) (a : Branch P) (k : Locks P) : Prop :=
  let lockname := "asim-".toList ++ a.branchname
  if !a.createLock || !k.free a.branchService lockname then True
  else
    a.renamed.Leads (k.nolocks = true) <|
    if uploaded (vc a.package) a.upload then k.granted a.branchService lockname = true
    else k.nolocks = true ∨ aborts (vc a.package) a.upload = true

/-- The branch leads to no lock that stays. -/
def Branch.Branches (vc : P → Vcs) (a : Branch P) (s : Shop P) : Prop :=
  let kind := vc a.package
  let lockname := s.locks.lockname a.package
  let granted := s.locks.granted a.service lockname
  let branchtags := if kind = .cvs ∨ kind = .svn then a.branchtags else none
  let upToDate := if kind = .svn then a.upToDate.ignored else a.upToDate
  let finished := a.commitSucceeds = true ∧ granted = true ∧
    (kind ≠ .svn → a.OwnLocked vc s.locks)
  if a.branchname = [] ∨ a.branchname = ['0'] then True
  else
    a.sanity.ignored.Leads True <|
    if kind ≠ .svn ∧ a.mergePoints then True
    else
      (unusedName branchtags a.branchname).Leads True <|
      if !s.locks.free a.service lockname then True
      else
        upToDate.Leads granted <|
        if !a.proceed then granted = true
        else
          s.backups = none ∧
          if kind = .cvs then
            (Outcome.ofBool (a.tagBranch && a.update)).Leads
              (s.locks.nolocks && a.abortSucceeds) finished
          else if kind = .svn then a.copy.ignored.Leads True finished
          else finished

theorem renamePackage_behaves {a : Branch P} {lockname : List Char} :
    Behaves (renamePackage a lockname) (.ofBool (isCsn (upgrade a.branchname ['1'])))
      (fun k => if isCsn (upgrade a.branchname ['1']) then
        { k with lockname := Function.update k.lockname a.package lockname } else k) := by
  have hcases : ∀ s, (renamePackage a lockname s).1 =
      .ofBool (isCsn (upgrade a.branchname ['1'])) ∧
      (renamePackage a lockname s).2.locks = if isCsn (upgrade a.branchname ['1']) then
        { s.locks with lockname := Function.update s.locks.lockname a.package lockname }
        else s.locks := by
    intro s
    unfold renamePackage Shop.setCsn
    simp only [Function.update_self]
    cases isCsn (upgrade a.branchname ['1']) <;> exact ⟨rfl, rfl⟩
  exact ⟨fun s => (hcases s).1, fun s => (hcases s).2⟩

/-- The stage of a branch: it leaves the set locks alone, and the lock that the user asks to keep is
that of the branch. -/
theorem branchStage_spec (vc : P → Vcs) (a : Branch P) (lockname : List Char) (s : Shop P) :
    (branchStage vc a lockname s).1 =
      a.renamed.andThen (.ofBool (uploaded (vc a.package) a.upload)) ∧
    (branchStage vc a lockname s).2.locks.held = s.locks.held ∧
    (branchStage vc a lockname s).2.locks.nolocks = s.locks.nolocks ∧
    (branchStage vc a lockname s).2.locks.asked =
      if a.renamed = .ok ∧ aborts (vc a.package) a.upload = true then lockname :: s.locks.asked
      else s.locks.asked := by
  have hasks : Behaves
      ((Stage.ask (P := P) (.ofBool a.addPackage)).andThen <|
        (Stage.ask (.ofBool a.removePackage)).andThen <| (Stage.ask (.ofBool a.mytags)).andThen <|
        (Stage.ask (.ofBool a.mergetags)).andThen (Stage.ask (.ofBool a.addMergePoints)))
      (.seq [.ofBool a.addPackage, .ofBool a.removePackage, .ofBool a.mytags, .ofBool a.mergetags,
        .ofBool a.addMergePoints]) id := by
    simp only [Outcome.seq_cons, Outcome.seq_nil, Outcome.andThen_ok]
    exact (Behaves.ask _).andThen_id <| (Behaves.ask _).andThen_id <|
      (Behaves.ask _).andThen_id <| (Behaves.ask _).andThen_id (.ask _)
  have hrename : Behaves (renamePackage a lockname) _ _ := renamePackage_behaves
  have harchive : Behaves (commitArchive vc a.upload a.package) _ _ := commitArchive_behaves
  have h := (Behaves.ask (.ofBool a.rename)).andThen (hrename.andThen (hasks.andThen harchive))
  simp only [Stage.andThen_assoc] at h
  have houtcome : (branchStage vc a lockname s).1 = _ := h.outcome s
  have hlocks : (branchStage vc a lockname s).2.locks = _ := h.locks s
  have hrenamed : a.renamed = (Outcome.ofBool a.rename).andThen
      ((Outcome.ofBool (isCsn (upgrade a.branchname ['1']))).andThen (.seq [.ofBool a.addPackage,
        .ofBool a.removePackage, .ofBool a.mytags, .ofBool a.mergetags,
        .ofBool a.addMergePoints])) := rfl
  rw [houtcome, hlocks, hrenamed, Outcome.andThen_assoc, Outcome.andThen_assoc]
  generalize Outcome.seq [.ofBool a.addPackage, .ofBool a.removePackage, .ofBool a.mytags,
    .ofBool a.mergetags, .ofBool a.addMergePoints] = o
  refine ⟨rfl, ?_⟩
  cases a.rename <;> cases isCsn (upgrade a.branchname ['1']) <;> cases o <;>
    cases aborts (vc a.package) a.upload <;>
    simp [Outcome.ofBool, Outcome.andThen, keepOption, keep]

theorem branchPackage_unlocked {a : Branch P} {s : Shop P} (hasked : s.locks.asked = []) :
    Unlocked s.locks (branchPackage vc a s) ↔ a.OwnLocked vc s.locks := by
  unfold branchPackage Branch.OwnLocked
  cases a.createLock with
  | false => exact iff_true_intro (unlocked_unchanged false)
  | true =>
    simp only [Bool.not_true, Bool.false_or, Bool.false_eq_true, if_false]
    generalize hname : "asim-".toList ++ a.branchname = lockname
    rw [acquireLock_eq]
    cases hfree : s.locks.free a.branchService lockname with
    | false => exact iff_true_intro (unlocked_unchanged false)
    | true =>
      simp only [if_true, Bool.not_true, Bool.false_eq_true, if_false]
      have hfresh := fresh_of_free hfree
      obtain ⟨houtcome, hheld, hnolocks, hask⟩ :=
        branchStage_spec vc a lockname (s.setLocks (s.locks.hold lockname))
      rw [houtcome]
      generalize (branchStage vc a lockname (s.setLocks (s.locks.hold lockname))).2 = s' at *
      simp only [Shop.setLocks, hold_nolocks, hold_asked, hasked] at hheld hnolocks hask
      cases hrenamed : a.renamed with
      | die => simp [Outcome.andThen, Outcome.Leads, not_unlocked_died]
      | fail =>
        rw [hrenamed, if_neg (by simp)] at hask
        have hreleased := released_hold hfresh hheld
        rw [hask] at hreleased
        simp [Outcome.andThen, Outcome.Leads, Unlocked, hreleased]
      | ok =>
        rw [hrenamed] at hask
        cases huploaded : uploaded (vc a.package) a.upload with
        | true =>
          have haborts : aborts (vc a.package) a.upload = false := by simp [aborts, huploaded]
          rw [if_neg (by simp [haborts])] at hask
          have hreleased : _ ↔ s.locks.granted a.branchService lockname = true :=
            released_release hfresh hheld hnolocks hask
          simp [Outcome.andThen, Outcome.Leads, Outcome.ofBool, Unlocked, hreleased, Shop.setLocks]
        | false =>
          have hreleased := released_hold hfresh hheld
          rw [hask] at hreleased
          cases haborts : aborts (vc a.package) a.upload <;>
            simp [Outcome.andThen, Outcome.Leads, Outcome.ofBool, Unlocked, hreleased, haborts]

/-- A lock that was left set before the branch got its own stays. -/
theorem branchPackage_stays {a : Branch P} {s : Shop P} {k : Locks P} {name : List Char}
    (hasked : s.locks.asked = []) (hnolocks : s.locks.nolocks = false)
    (hheld : name ∈ s.locks.held) (hfresh : name ∉ k.held) :
    ¬ Unlocked k (branchPackage vc a s) := by
  have hleft : ∀ (success : Bool) (s' : Shop P), name ∈ s'.locks.held → name ∉ s'.locks.asked →
      ¬ Unlocked k (.returned success, s') := by
    intro success s' hheld' hasked' h
    rcases h.2 name hheld' with hold | hask
    · exact hfresh hold
    · exact hasked' hask
  unfold branchPackage
  generalize hlockname : "asim-".toList ++ a.branchname = lockname
  cases a.createLock with
  | false => exact hleft false s hheld (by simp [hasked])
  | true =>
    simp only [Bool.not_true, Bool.false_eq_true, if_false]
    rw [acquireLock_eq]
    cases hfree : s.locks.free a.branchService lockname with
    | false => exact hleft false _ hheld (by simp [Shop.setLocks, hasked])
    | true =>
      have hne : name ≠ lockname := by
        rintro rfl
        rcases fresh_of_free hfree with h | h
        · rw [hnolocks] at h
          cases h
        · exact h hheld
      obtain ⟨houtcome, hheld', hnolocks', hask⟩ :=
        branchStage_spec vc a lockname (s.setLocks (s.locks.hold lockname))
      simp only [if_true]
      rw [houtcome]
      generalize (branchStage vc a lockname (s.setLocks (s.locks.hold lockname))).2 = s' at *
      simp only [Shop.setLocks, hold_asked, hasked] at hheld' hask
      have hmem : name ∈ s'.locks.held := by
        rw [hheld', hold, hnolocks]
        exact List.mem_cons_of_mem _ hheld
      have hnot : name ∉ s'.locks.asked := by
        rw [hask]
        split_ifs <;> simp [hne]
      cases a.renamed.andThen (.ofBool (uploaded (vc a.package) a.upload)) with
      | die => exact not_unlocked_died
      | fail => exact hleft false s' hmem hnot
      | ok =>
        apply hleft
        · rw [Shop.setLocks, mem_held_releaseLock]
          exact ⟨hmem, fun h => absurd h hne⟩
        · unfold Shop.setLocks releaseLock
          split_ifs <;> exact hnot

theorem finishBranch_unlocked {a : Branch P} {k : Locks P} {s : Shop P} (hasked : k.asked = [])
    (hfresh : k.Fresh (k.lockname a.package)) (hlocks : s.locks = k.hold (k.lockname a.package)) :
    Unlocked k (finishBranch vc a s) ↔ a.commitSucceeds = true ∧
      k.granted a.service (k.lockname a.package) = true ∧
      (vc a.package ≠ .svn → a.OwnLocked vc k) := by
  unfold finishBranch
  cases a.commitSucceeds with
  | false => simp [not_unlocked_died]
  | true =>
    have hrelease : (s.commitTransaction.releaseLock a.service a.package).locks =
        ((k.hold (k.lockname a.package)).releaseLock a.service (k.lockname a.package)).2 := by
      simp [Shop.releaseLock, Shop.setLocks, Shop.commitTransaction, hlocks, hold_lockname]
    rw [releaseLock_hold hfresh] at hrelease
    simp only [Bool.not_true, Bool.false_eq_true, if_false, true_and]
    generalize s.commitTransaction.releaseLock a.service a.package = s' at hrelease ⊢
    cases hgranted : k.granted a.service (k.lockname a.package) with
    | true =>
      have hlocks' : s'.locks = k := by rw [hrelease, hgranted]; rfl
      by_cases hvc : vc a.package = .svn
      · rw [if_pos hvc, ← hlocks']
        exact iff_of_true (unlocked_unchanged true) ⟨rfl, fun h => absurd hvc h⟩
      · rw [if_neg hvc, ← hlocks', branchPackage_unlocked (by rw [hlocks', hasked])]
        simp [hvc]
    | false =>
      have hlocks' : s'.locks = k.hold (k.lockname a.package) := by rw [hrelease, hgranted]; rfl
      unfold granted at hgranted
      rw [Bool.or_eq_false_iff] at hgranted
      have hnot : k.lockname a.package ∉ k.held := hfresh.resolve_left (by simp [hgranted.1])
      refine iff_of_false ?_ (by simp)
      by_cases hvc : vc a.package = .svn
      · rw [if_pos hvc]
        intro h
        have hnolocks := (unlocked_hold hfresh hasked hlocks').mp h.2
        rw [hgranted.1] at hnolocks
        cases hnolocks
      · rw [if_neg hvc]
        refine branchPackage_stays ?_ ?_ ?_ hnot
        · rw [hlocks', hold_asked, hasked]
        · rw [hlocks', hold_nolocks, hgranted.1]
        · rw [hlocks', hold, hgranted.1]
          exact List.mem_cons_self

theorem branch_unlocked {a : Branch P} {s : Shop P} (hasked : s.locks.asked = []) :
    Unlocked s.locks (branch vc a s) ↔ a.Branches vc s := by
  unfold branch Branch.Branches
  by_cases hname : a.branchname = [] ∨ a.branchname = ['0']
  · rw [if_pos hname]
    dsimp only
    rw [if_pos hname]
    exact iff_true_intro (unlocked_unchanged false)
  dsimp only
  rw [if_neg hname, if_neg hname, attempt_iff not_unlocked_died]
  refine Outcome.leads_congr (fun _ => iff_true_intro (unlocked_unchanged false)) fun _ => ?_
  by_cases hmerge : vc a.package ≠ .svn ∧ a.mergePoints = true
  · rw [if_pos hmerge, if_pos hmerge]
    exact iff_true_intro (unlocked_unchanged false)
  rw [if_neg hmerge, if_neg hmerge, attempt_iff not_unlocked_died]
  refine Outcome.leads_congr (fun _ => iff_true_intro (unlocked_unchanged false)) fun _ => ?_
  rw [acquireLock_eq]
  cases hfree : s.locks.free a.service (s.locks.lockname a.package) with
  | false => exact iff_true_intro (unlocked_unchanged false)
  | true =>
    have hfresh := fresh_of_free hfree
    have hlocks : (s.setLocks (s.locks.hold (s.locks.lockname a.package))).locks =
      s.locks.hold (s.locks.lockname a.package) := rfl
    have hrelease := released_releaseLock a.service hfresh hasked hlocks
    simp only [if_true, Bool.not_true, Bool.false_eq_true, if_false]
    rw [attempt_iff not_unlocked_died]
    apply Outcome.leads_congr
    · intro _
      rw [← hrelease]
      exact and_iff_right (by simp)
    · intro _
      cases a.proceed with
      | false =>
        simp only [Bool.not_false, if_true, ← hrelease]
        exact and_iff_right (by simp)
      | true =>
        simp only [Bool.not_true, Bool.false_eq_true, if_false]
        cases hbackups : s.backups with
        | some backups =>
          rw [Shop.start_of_some hbackups]
          simp [not_unlocked_died]
        | none =>
          rw [Shop.start_of_none hbackups]
          simp only [attempt_ok, true_and]
          generalize hs₁ : ({ s.setLocks (s.locks.hold (s.locks.lockname a.package)) with
            backups := some [] } : Shop P) = s₁
          have hlocks₁ : s₁.locks = s.locks.hold (s.locks.lockname a.package) := by
            rw [← hs₁]
            rfl
          have hfinish : Unlocked s.locks (finishBranch vc a s₁) ↔ _ :=
            finishBranch_unlocked hasked hfresh hlocks₁
          cases hvc : vc a.package with
          | cvs =>
            rw [hvc] at hfinish
            simp only [if_true]
            rw [attempt_iff not_unlocked_died]
            apply Outcome.leads_congr
            · intro _
              rw [unlocked_abort, unlocked_hold hfresh hasked hlocks₁, Bool.and_eq_true]
            · exact fun _ => hfinish
          | svn =>
            rw [hvc] at hfinish
            simp only [reduceCtorEq, if_true, if_false]
            rw [attempt_iff not_unlocked_died]
            apply Outcome.leads_congr
            · exact fun h => absurd h (Outcome.ignored_ne_fail _)
            · exact fun _ => hfinish
          | git | hg | other =>
            rw [hvc] at hfinish
            simpa using hfinish

/-! ### Every operation -/

inductive Operation (P : Type)
  | commit (a : Attempt P)
  | pushPackage (a : Attempt P)
  | release (a : Release P)
  | branch (a : Branch P)
  | label (a : Label P)

namespace Operation

/-- What the caller asks to keep is recorded for each operation. -/
def run (vc : P → Vcs) (op : Operation P) (s : Shop P) : End × Shop P :=
  let s := s.setLocks { s.locks with asked := [] }
  match op with
  | .commit a => Package.commit vc a s
  | .pushPackage a => Package.pushPackage vc a s
  | .release a => Package.release vc a s
  | .branch a => Package.branch vc a s
  | .label a => Package.label a s

/-- The operation returns, and every lock that it took is released or to be kept. -/
def ReleasesLocks (vc : P → Vcs) (op : Operation P) (s : Shop P) : Prop :=
  Unlocked s.locks (op.run vc s)

/-- No step dies, no release is refused, and no step fails where the code forgets the lock. -/
def Clears (vc : P → Vcs) (op : Operation P) (s : Shop P) : Prop :=
  let s := s.setLocks { s.locks with asked := [] }
  match op with
  | .commit a => a.Commits vc s
  | .pushPackage a => a.Pushes vc s
  | .release a => a.Releases vc s
  | .branch a => a.Branches vc s
  | .label a => a.Labels s

end Operation

theorem releasesLocks_iff (vc : P → Vcs) (op : Operation P) (s : Shop P) :
    op.ReleasesLocks vc s ↔ op.Clears vc s := by
  have hasked : (s.setLocks { s.locks with asked := [] }).locks.asked = [] := rfl
  cases op with
  | commit a => exact commit_unlocked hasked
  | pushPackage a => exact pushPackage_unlocked hasked
  | release a => exact release_unlocked hasked
  | branch a => exact branch_unlocked hasked
  | label a => exact label_unlocked hasked

/-- A CVS package, and a lock service that grants everything. -/
def cvsShop : Shop Unit where
  name _ := "pkg".toList
  value _ := "CSN-pkg-7".toList
  saved _ := "CSN-pkg-7".toList
  locks := { lockname := fun _ => "asim-pkg".toList }

def granting : Service where
  lock _ := true
  unlock _ := true

/-- A release whose branch cannot be tagged. -/
def untagged : Release Unit where
  package := ()
  version := "1.0".toList
  repositoryDB := .ok
  mergePoints := false
  branchtags := some []
  service := granting
  upToDate := .ok
  dependencies := false
  confirmed := false
  proceed := true
  tagBranch := false
  update := true
  mytags := true
  mergetags := true
  addMergePoints := true
  edit := .ok
  upload := {}
  tagPatch := true
  abortSucceeds := true
  commitSucceeds := true

theorem not_releasesLocks : ¬ ∀ (vc : Unit → Vcs) (op : Operation Unit) (s : Shop Unit),
    op.ReleasesLocks vc s := by
  intro h
  have hheld := (h (fun _ => .cvs) (.release untagged) cvsShop).2 "asim-pkg".toList (by decide)
  revert hheld
  decide

end Awb.Package
