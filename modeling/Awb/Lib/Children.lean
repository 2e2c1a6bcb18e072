import Mathlib.Data.List.AList
import Mathlib.Algebra.BigOperators.Group.List.Basic

/-! The children of a process, as the operating system keeps them. A child runs, ends with a
status, and stays in the table until it is reaped; then its process id may be used again. -/

namespace Children

abbrev Pid := Nat

/-- A child exits with a code or is killed by a signal, with or without a core dump. -/
inductive Status
  | exited (code : UInt8)
  | signaled (signal : { n : Nat // 0 < n ∧ n < 127 }) (core : Bool)
  deriving DecidableEq, Repr

namespace Status

/-- The status word that `wait` stores. -/
def word : Status → Nat
  | exited code => code.toNat <<< 8
  | signaled signal core => signal.val + if core then 128 else 0

def isSuccess (status : Status) : Bool := status = exited 0

end Status

/-- The children that have not been reaped. One that runs has no status yet. -/
abbrev Table := AList fun _ : Pid => Option Status

namespace Table
variable {table : Table} {pid pid' : Pid} {status : Status}

/-- The child runs. -/
def Runs (table : Table) (pid : Pid) : Prop := table.lookup pid = some none

instance (table : Table) (pid : Pid) : Decidable (table.Runs pid) :=
  inferInstanceAs (Decidable (_ = _))

/-- A new child, a child that ends, and a child that is reaped. -/
def start (pid : Pid) (table : Table) : Table := table.insert pid none

def finish (pid : Pid) (status : Status) (table : Table) : Table := table.insert pid (some status)

def reap (pid : Pid) (table : Table) : Table := table.erase pid

/-- What `waitpid` with `WNOHANG` finds. -/
inductive Found
  | noChild
  | running
  | ended (status : Status)
  deriving DecidableEq, Repr

def waitpid (pid : Pid) (table : Table) : Found × Table :=
  match table.lookup pid with
  | none => (.noChild, table)
  | some none => (.running, table)
  | some (some status) => (.ended status, table.reap pid)

theorem waitpid_running (h : table.Runs pid) : table.waitpid pid = (.running, table) := by
  unfold Runs at h
  rw [waitpid, h]

/-- A child that does not run is gone when `waitpid` has looked at it. -/
theorem waitpid_of_not_runs (h : ¬ table.Runs pid) :
    (table.waitpid pid).1 ≠ .running ∧ (table.waitpid pid).2 = table.reap pid := by
  unfold Runs at h
  rw [waitpid]
  cases hlookup : table.lookup pid with
  | none =>
    have hpid : pid ∉ table := AList.lookup_eq_none.mp hlookup
    have herase : table.reap pid = table := by
      apply AList.ext
      exact List.kerase_of_notMem_keys hpid
    exact ⟨by simp, herase.symm⟩
  | some found =>
    cases found with
    | none => exact absurd hlookup h
    | some status => exact ⟨by simp, rfl⟩

theorem runs_start (h : pid ∉ table) :
    (table.start pid).Runs pid' ↔ pid' = pid ∨ table.Runs pid' := by
  unfold Runs start
  by_cases heq : pid' = pid
  · subst heq
    simp [AList.lookup_insert]
  · rw [AList.lookup_insert_ne heq]
    simp [heq]

theorem runs_finish : (table.finish pid status).Runs pid' ↔ pid' ≠ pid ∧ table.Runs pid' := by
  unfold Runs finish
  by_cases heq : pid' = pid
  · subst heq
    simp [AList.lookup_insert]
  · rw [AList.lookup_insert_ne heq]
    simp [heq]

theorem runs_reap (h : ¬ table.Runs pid) : (table.reap pid).Runs pid' ↔ table.Runs pid' := by
  unfold Runs reap at *
  by_cases heq : pid' = pid
  · subst heq
    simp [AList.lookup_erase, h]
  · rw [AList.lookup_erase_ne heq]

/-! ### What has ended -/

def statusOf (child : Sigma fun _ : Pid => Option Status) : Option Status := child.2

/-- The statuses of the children that have ended. -/
def ended (table : Table) : List Status := table.entries.filterMap statusOf

theorem ended_empty : ended (∅ : Table) = [] := rfl

theorem entries_perm {found : Option Status} (h : table.lookup pid = some found) :
    table.entries.Perm (⟨pid, found⟩ :: (table.reap pid).entries) := by
  have hmem : pid ∈ table.keys := AList.mem_keys.mp (AList.lookup_isSome.mp (by rw [h]; rfl))
  obtain ⟨found', l₁, l₂, hnot, hl, herase⟩ := List.exists_of_kerase hmem
  have hlookup : table.entries.dlookup pid = some found' := by
    apply List.mem_dlookup table.nodupKeys
    rw [hl]
    exact List.mem_append_right l₁ List.mem_cons_self
  have heq : found' = found := Option.some.inj (hlookup.symm.trans h)
  subst heq
  have hentries : (table.reap pid).entries = l₁ ++ l₂ := herase
  rw [hentries, hl]
  exact List.perm_middle

theorem ended_start (h : pid ∉ table) : (table.start pid).ended = table.ended := by
  rw [ended, start, AList.entries_insert_of_notMem h]
  rfl

theorem ended_finish (h : table.Runs pid) :
    (table.finish pid status).ended.Perm (status :: table.ended) := by
  have hbefore : table.ended.Perm (table.reap pid).ended :=
    (entries_perm h).filterMap statusOf
  have hafter : (table.finish pid status).ended = status :: (table.reap pid).ended := by
    rw [ended, finish, AList.entries_insert]
    rfl
  rw [hafter]
  exact hbefore.symm.cons status

theorem ended_reap (h : table.lookup pid = some (some status)) :
    table.ended.Perm (status :: (table.reap pid).ended) := by
  have hperm : table.ended.Perm _ := (entries_perm h).filterMap statusOf
  exact hperm

end Table
end Children
