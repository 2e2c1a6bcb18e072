import Awb.Batch.Fork

/-! The exit status of a process that waits for its children: it knows the exit codes of the
children that are left for the final wait, and nothing else of the others. -/

namespace Awb.Batch
open Children

/-- Some child has ended unsuccessfully. -/
def Failed (tr : List ForkLabel) : Prop :=
  ∃ pid status, .ends pid status ∈ tr ∧ status.isSuccess = false

/-- The exit code of a child at its end. -/
def ForkLabel.endedEcode : ForkLabel → Nat
  | .ends _ status => childEcode status
  | _ => 0

/-- The exit codes of the children that have not been reaped when the final wait begins, those that
end later included. -/
def lingering (p : Process) (tr : List ForkLabel) : Nat :=
  (p.table.ended.map childEcode).sum + (tr.map ForkLabel.endedEcode).sum

variable {p p' q : Process} {l : ForkLabel} {tr tr' : List ForkLabel}

/-- The statuses in the table are those of children that have ended. -/
def Recorded (tr : List ForkLabel) (p : Process) : Prop :=
  ∀ status ∈ p.table.ended, ∃ pid, .ends pid status ∈ tr

theorem Count.child_ended {pid : Pid} {todo : List Pid} {table : Table} {count : Count}
    {status : Status} (h : status ∈ (count.child pid todo table).1.ended) :
    status ∈ table.ended := by
  unfold Count.child Table.waitpid at h
  cases hlookup : table.lookup pid with
  | none => simpa [hlookup] using h
  | some found =>
    cases found with
    | none => simpa [hlookup] using h
    | some status' =>
      have hperm := Table.ended_reap hlookup
      simp only [hlookup] at h
      exact hperm.mem_iff.mpr (List.mem_cons_of_mem status' h)

theorem Recorded.step (h : Recorded tr p) (hstep : ForkStep p l p') : Recorded (tr ++ [l]) p' := by
  have hsame : p'.table = p.table → Recorded (tr ++ [l]) p' := by
    intro htable status hstatus
    obtain ⟨pid, hpid⟩ := h status (htable ▸ hstatus)
    exact ⟨pid, List.mem_append_left [l] hpid⟩
  cases hstep.move with
  | @ends pid status hruns =>
    intro status' hstatus'
    rcases List.mem_cons.mp ((Table.ended_finish hruns).mem_iff.mp hstatus') with rfl | hmem
    · exact ⟨pid, List.mem_append_right tr List.mem_cons_self⟩
    · obtain ⟨pid', hpid'⟩ := h status' hmem
      exact ⟨pid', List.mem_append_left _ hpid'⟩
  | waitpid hphase htodo =>
    intro status hstatus
    obtain ⟨pid, hpid⟩ := h status (Count.child_ended hstatus)
    exact ⟨pid, List.mem_append_left _ hpid⟩
  | fork hphase htodo hlimit hpid hnew =>
    intro status hstatus
    have hbefore : status ∈ p.table.ended := (Table.ended_start hnew) ▸ hstatus
    obtain ⟨pid', hpid'⟩ := h status hbefore
    exact ⟨pid', List.mem_append_left _ hpid'⟩
  | @wait _ _ _ status hphase hlookup =>
    intro status' hstatus'
    have hperm := Table.ended_reap hlookup
    obtain ⟨pid', hpid'⟩ := h status' (hperm.mem_iff.mpr (List.mem_cons_of_mem status hstatus'))
    exact ⟨pid', List.mem_append_left _ hpid'⟩
  | controlledFork | sleep | forkFails | controlledExit | exit => exact hsame rfl

/-- The invariant of the final wait: what has been summed up, and what has ended since. -/
def Waited (p : Process) (exitCode : Int) (tr : List ForkLabel) (q : Process) : Prop :=
  (∃ ecode, q.phase = .waiting exitCode ecode ∧
    ecode + (q.table.ended.map childEcode).sum = lingering p tr) ∨
  (q.phase = .exited (exitStatus (exitCode + lingering p tr)) ∧ q.table.keys = [])

theorem lingering_append_singleton (p : Process) (tr : List ForkLabel) (l : ForkLabel) :
    lingering p (tr ++ [l]) = lingering p tr + l.endedEcode := by
  simp [lingering, Nat.add_assoc]

theorem ended_of_keys {table : Table} (h : table.keys = []) : table.ended = [] := by
  have hentries : table.entries = [] := List.map_eq_nil_iff.mp h
  rw [Table.ended, hentries]
  rfl

theorem Waited.step {exitCode : Int} (h : Waited p exitCode tr q) (hstep : ForkStep q l p') :
    Waited p exitCode (tr ++ [l]) p' := by
  have hidle : q.phase ≠ .idle := by
    intro hidle
    rcases h with ⟨ecode, hphase, -⟩ | ⟨hphase, -⟩ <;> cases hphase.symm.trans hidle
  have hcounting : ∀ args count, q.phase ≠ .counting args count := by
    intro args count hcount
    rcases h with ⟨ecode, hphase, -⟩ | ⟨hphase, -⟩ <;> cases hphase.symm.trans hcount
  unfold Waited
  rw [lingering_append_singleton]
  cases hstep.move with
  | @ends pid status hruns =>
    rcases h with ⟨ecode, hphase, hsum⟩ | ⟨hphase, hkeys⟩
    · refine Or.inl ⟨ecode, hphase, ?_⟩
      have hperm : (q.table.finish pid status).ended.Perm (status :: q.table.ended) :=
        Table.ended_finish hruns
      rw [(hperm.map childEcode).sum_eq, List.map_cons, List.sum_cons, ForkLabel.endedEcode]
      omega
    · have hmem : pid ∈ q.table.keys :=
        AList.mem_keys.mp (AList.lookup_isSome.mp (by rw [hruns]; rfl))
      rw [hkeys] at hmem
      cases hmem
  | @wait exitCode' ecode' pid status hphase' hlookup =>
    rcases h with ⟨ecode, hphase, hsum⟩ | ⟨hphase, -⟩
    · obtain ⟨rfl, rfl⟩ := Phase.waiting.inj (hphase.symm.trans hphase')
      refine Or.inl ⟨_, rfl, ?_⟩
      have hperm := ((Table.ended_reap hlookup).map childEcode).sum_eq
      rw [hperm, List.map_cons, List.sum_cons] at hsum
      change ecode + childEcode status + ((Table.reap pid q.table).ended.map childEcode).sum =
        lingering p tr + 0
      omega
    · cases hphase.symm.trans hphase'
  | @exit exitCode' ecode' hphase' hkeys =>
    rcases h with ⟨ecode, hphase, hsum⟩ | ⟨hphase, -⟩
    · obtain ⟨rfl, rfl⟩ := Phase.waiting.inj (hphase.symm.trans hphase')
      rw [ended_of_keys hkeys] at hsum
      have hecode : ecode = lingering p tr := hsum
      refine Or.inr ⟨?_, hkeys⟩
      have hexit : ForkLabel.exit.endedEcode = 0 := rfl
      rw [hexit, hecode]
      rfl
    · cases hphase.symm.trans hphase'
  | controlledFork hphase => exact absurd hphase hidle
  | controlledExit hphase => exact absurd hphase hidle
  | waitpid hphase => exact absurd hphase (hcounting _ _)
  | sleep hphase => exact absurd hphase (hcounting _ _)
  | fork hphase => exact absurd hphase (hcounting _ _)
  | forkFails hphase => exact absurd hphase (hcounting _ _)


/-- The process ends with the sum of the code of its caller and the lingering ones. -/
theorem Waited.of_run {exitCode : Int} (hwait : p.waitForChildren = true)
    (run : Lts.Run ForkStep p (.controlledExit exitCode :: tr) q) : Waited p exitCode tr q := by
  obtain ⟨p', hexit, run'⟩ : ∃ p', ForkStep p (.controlledExit exitCode) p' ∧ _ := run.cons_inv
  refine run'.invariant (Waited p exitCode) ?_ fun tr t l u => Waited.step
  cases hexit.move with
  | controlledExit hidle =>
    have hphase : p.exitPhase exitCode = .waiting exitCode 0 := by
      rw [Process.exitPhase, if_pos hwait]
    refine Or.inl ⟨0, hphase, ?_⟩
    have hlingering : lingering p [] = (p.table.ended.map childEcode).sum := rfl
    rw [hlingering, Nat.zero_add]

theorem Recorded.of_run (run : Lts.Run ForkStep waitingProcess tr p) : Recorded tr p := by
  refine run.invariant Recorded ?_ fun tr t l u => Recorded.step
  intro status hstatus
  cases hstatus

theorem childEcode_of_isSuccess {status : Status} (h : status.isSuccess = true) :
    childEcode status = 0 := by
  obtain rfl : status = .exited 0 := of_decide_eq_true h
  rfl

theorem endedEcode_of_not_failed (h : ¬ Failed tr) (hl : l ∈ tr) : l.endedEcode = 0 := by
  cases l with
  | ends pid status =>
    cases hsuccess : status.isSuccess with
    | false => exact absurd ⟨pid, status, hl, hsuccess⟩ h
    | true => exact childEcode_of_isSuccess hsuccess
  | _ => rfl

/-- Without a failure nothing is left to be summed up. -/
theorem lingering_of_not_failed (h : Recorded tr p) (hfailed : ¬ Failed (tr ++ tr')) :
    lingering p tr' = 0 := by
  have htable : ∀ code ∈ p.table.ended.map childEcode, code = 0 := by
    intro code hcode
    obtain ⟨status, hstatus, rfl⟩ := List.mem_map.mp hcode
    obtain ⟨pid, hpid⟩ := h status hstatus
    exact endedEcode_of_not_failed hfailed (List.mem_append_left tr' hpid)
  have htrace : ∀ code ∈ tr'.map ForkLabel.endedEcode, code = 0 := by
    intro code hcode
    obtain ⟨l, hl, rfl⟩ := List.mem_map.mp hcode
    exact endedEcode_of_not_failed hfailed (List.mem_append_right tr hl)
  rw [lingering, List.sum_eq_zero htable, List.sum_eq_zero htrace, Nat.add_zero]

theorem exitStatus_ne_zero (exitCode : Int) : exitStatus exitCode ≠ 0 ↔ ¬ 256 ∣ exitCode := by
  unfold exitStatus
  omega

/-- The exit status tells of a failure if and only if there is none, or the code of the caller and
the codes of the children that are left for the final wait make no multiple of 256. -/
theorem exitStatus_reports {exitCode : Int} {status : Nat}
    (before : Lts.Run ForkStep waitingProcess tr p) (hwait : p.waitForChildren = true)
    (after : Lts.Run ForkStep p (.controlledExit exitCode :: tr') q)
    (hexited : q.phase = .exited status) :
    (status ≠ 0 ↔ exitCode ≠ 0 ∨ Failed (tr ++ tr')) ↔
      (exitCode = 0 ∧ ¬ Failed (tr ++ tr')) ∨ ¬ 256 ∣ exitCode + lingering p tr' := by
  have hstatus : status = exitStatus (exitCode + lingering p tr') := by
    rcases Waited.of_run hwait after with ⟨ecode, hphase, -⟩ | ⟨hphase, -⟩
    · cases hphase.symm.trans hexited
    · exact Phase.exited.inj (hexited.symm.trans hphase)
  rw [hstatus, exitStatus_ne_zero]
  by_cases hfailed : exitCode ≠ 0 ∨ Failed (tr ++ tr')
  · have hnot : ¬ (exitCode = 0 ∧ ¬ Failed (tr ++ tr')) := by
      rintro ⟨hcode, hnone⟩
      exact hfailed.elim (fun h => h hcode) hnone
    simp only [hfailed, hnot, iff_true, false_or]
  · obtain ⟨hcode, hnone⟩ := not_or.mp hfailed
    have hzero : exitCode = 0 := Decidable.not_not.mp hcode
    have hlingering : lingering p tr' = 0 := lingering_of_not_failed (.of_run before) hnone
    subst hzero
    simp [hnone, hlingering]

/-- A child exits with 3 and is left for the final wait. -/
theorem exitStatus_reports_lingering :
    (3 ≠ 0 ↔ (0 : Int) ≠ 0 ∨ Failed ([.controlledFork ⟨true, 0⟩, .fork 7, .ends 7 (.exited 3)] ++
      [.wait 7, .exit])) ↔
    ((0 : Int) = 0 ∧ ¬ Failed ([.controlledFork ⟨true, 0⟩, .fork 7, .ends 7 (.exited 3)] ++
      [.wait 7, .exit])) ∨ ¬ 256 ∣ (0 : Int) + (3 : Nat) := by
  have before : Lts.Run ForkStep waitingProcess
      [.controlledFork ⟨true, 0⟩, .fork 7, .ends 7 (.exited 3)]
      { waitForChildren := true, children := [7], table := Table.finish 7 (.exited 3) ∅ } :=
    .of_foldlM (f := Process.step) (fun _ _ _ h => h) rfl
  have after : Lts.Run ForkStep
      { waitForChildren := true, children := [7], table := Table.finish 7 (.exited 3) ∅ }
      [.controlledExit 0, .wait 7, .exit]
      { waitForChildren := true, children := [7], phase := .exited 3 } :=
    .of_foldlM (f := Process.step) (fun _ _ _ h => h) rfl
  exact exitStatus_reports before rfl after rfl

/-- A child exits with 1 and is reaped while its parent forks another one. -/
theorem not_exitStatus_reports : ¬ ∀ (tr tr' : List ForkLabel) (p q : Process) (exitCode : Int)
    (status : Nat), Lts.Run ForkStep waitingProcess tr p → p.waitForChildren = true →
    Lts.Run ForkStep p (.controlledExit exitCode :: tr') q → q.phase = .exited status →
    (status ≠ 0 ↔ exitCode ≠ 0 ∨ Failed (tr ++ tr')) := by
  intro h
  have before : Lts.Run ForkStep waitingProcess
      [.controlledFork ⟨true, 0⟩, .fork 7, .ends 7 (.exited 1), .controlledFork ⟨true, 0⟩,
        .waitpid, .fork 8, .ends 8 (.exited 0)]
      { waitForChildren := true, children := [8], exitCode := 1,
        table := Table.finish 8 (.exited 0) ∅ } :=
    .of_foldlM (f := Process.step) (fun _ _ _ h => h) rfl
  have after : Lts.Run ForkStep
      { waitForChildren := true, children := [8], exitCode := 1,
        table := Table.finish 8 (.exited 0) ∅ }
      [.controlledExit 0, .wait 8, .exit]
      { waitForChildren := true, children := [8], exitCode := 1, phase := .exited 0 } :=
    .of_foldlM (f := Process.step) (fun _ _ _ h => h) rfl
  have hfailed := (h _ _ _ _ 0 0 before rfl after rfl).mpr
    (Or.inr ⟨7, .exited 1, by simp, rfl⟩)
  exact hfailed rfl

end Awb.Batch
