import Awb.Lib.Overlays
import Awb.Transaction.Log

/-! The logs as they follow from the registrations, and what replaying them writes. The newest
command runs first, so the oldest registration of a file has the last word. -/

namespace Awb.Transaction
open Command

namespace Registration

/-- What a registration puts in front of the abort log. -/
def abortCommands (pid : Nat) (r : Registration) : List Command :=
  match r.mode, r.found with
  | .dir, some _ => []
  | .dir, none => [rmDir r.path]
  | _, some _ => [mv (temp pid r.index) r.path]
  | _, none => [rm r.path]

def commitCommands (pid : Nat) (r : Registration) : List Command :=
  match r.mode, r.found with
  | .dir, _ => []
  | .add, some _ => [rm (temp pid r.index)]
  | .add, none => []
  | .protect, some _ => [mv (temp pid r.index) r.path]
  | .protect, none => [rm r.path]

/-- The file is as it was found, and its backup is gone. -/
def restored (pid : Nat) (r : Registration) (p : Path) : Option (Option Node) :=
  if p = r.path then some r.found
  else if r.found ≠ none ∧ p = temp pid r.index then some none else none

/-- What the abort commands write. -/
def abortWrite (pid : Nat) (r : Registration) (p : Path) : Option (Option Node) :=
  match r.mode with
  | .dir => if r.found = none ∧ r.path <+: p then some none else none
  | _ => r.restored pid p

def commitWrite (pid : Nat) (r : Registration) (p : Path) : Option (Option Node) :=
  match r.mode with
  | .dir => none
  | .add => if r.found ≠ none ∧ p = temp pid r.index then some none else none
  | .protect => r.restored pid p

/-- What holds of a registration when it is made on top of older ones. -/
structure Sound (pid : Nat) (older : List Registration) (r : Registration) : Prop where
  notTemp : ∀ i, r.path ≠ temp pid i
  notDir : r.isFile → r.found ≠ some .dir
  index : r.backs → ∀ r' ∈ older, r'.backs → r'.index ≠ r.index
  below : r.isFile → (∀ r' ∈ older, r'.isFile → r'.path ≠ r.path) →
    ∀ d ∈ older, d.mode = .dir → d.found = none → d.path <+: r.path → r.found = none
  spares : r.mode = .dir → r.found = none →
    ∀ r' ∈ older, r'.backs → ¬ r.path <+: temp pid r'.index

def Valid (pid : Nat) : List Registration → Prop
  | [] => True
  | r :: older => Sound pid older r ∧ Valid pid older

/-- The backups are in place, and no registered file is a directory. -/
structure Ready (pid : Nat) (history : List Registration) (fs : Files) : Prop where
  backup : ∀ r ∈ history, r.backs → fs (temp pid r.index) = r.found
  notDir : ∀ r ∈ history, r.isFile → fs r.path ≠ some .dir

theorem Ready.tail {pid : Nat} {r : Registration} {older : List Registration} {fs : Files}
    (h : Ready pid (r :: older) fs) : Ready pid older fs where
  backup r' hr' := h.backup r' (List.mem_cons_of_mem r hr')
  notDir r' hr' := h.notDir r' (List.mem_cons_of_mem r hr')

/-- Commands that write what they should, where the backups they need are in place, and leave
the older backups alone. -/
structure Replays (pid : Nat) (commands : Registration → List Command)
    (effect : Registration → Path → Option (Option Node)) : Prop where
  exec : ∀ r older fs fs', Sound pid older r → Ready pid (r :: older) fs →
    runAll (commands r) fs = some fs' → fs' = Overlay.write (effect r) fs
  spares : ∀ r older r', Sound pid older r → r' ∈ older → r'.backs →
    effect r (temp pid r'.index) = none
  notDir : ∀ r older p, Sound pid older r → effect r p ≠ some (some .dir)

/-- A log that is replayed is a list of partial writes. -/
theorem Replays.run {pid : Nat} {commands : Registration → List Command}
    {effect : Registration → Path → Option (Option Node)} (h : Replays pid commands effect)
    {history : List Registration} {fs fs' : Files} (hvalid : Valid pid history)
    (hready : Ready pid history fs) (hrun : runAll (history.flatMap commands) fs = some fs') :
    fs' = Overlay.writeAll (history.map effect) fs := by
  induction history generalizing fs with
  | nil => exact (Option.some.inj hrun).symm
  | cons r older ih =>
    obtain ⟨hsound, holder⟩ := hvalid
    rw [List.flatMap_cons, runAll_append] at hrun
    obtain ⟨fs₁, hfirst, hrest⟩ := Option.bind_eq_some_iff.mp hrun
    obtain rfl := h.exec r older fs fs₁ hsound hready hfirst
    have hready₁ : Ready pid older (Overlay.write (effect r) fs) := by
      constructor
      · intro r' hr' hbacks
        rw [Overlay.write_of_none (h.spares r older r' hsound hr' hbacks)]
        exact hready.tail.backup r' hr' hbacks
      · intro r' hr' hfile hdir
        cases heffect : effect r r'.path with
        | none =>
          rw [Overlay.write_of_none heffect] at hdir
          exact hready.tail.notDir r' hr' hfile hdir
        | some n =>
          rw [Overlay.write_of_some heffect] at hdir
          exact h.notDir r older r'.path hsound (heffect.trans (congrArg some hdir))
    exact ih holder hready₁ hrest

section
variable {pid : Nat} {r : Registration} {older : List Registration} {fs fs' : Files}

theorem Sound.temp_ne (h : Sound pid older r) (i : Nat) : temp pid i ≠ r.path :=
  fun hi => h.notTemp i hi.symm

theorem restored_path : r.restored pid r.path = some r.found := if_pos rfl

/-- A file is moved back from its backup, or removed if there was none. -/
def undo (pid : Nat) (r : Registration) : List Command :=
  if r.found ≠ none then [mv (temp pid r.index) r.path] else [rm r.path]

theorem undo_exec (h : Sound pid older r) (hready : Ready pid (r :: older) fs)
    (hfile : r.isFile) (hrun : runAll (r.undo pid) fs = some fs') :
    fs' = Overlay.write (r.restored pid) fs := by
  unfold undo at hrun
  cases hfound : r.found with
  | none =>
    rw [if_neg (by simp [hfound])] at hrun
    obtain ⟨fs₁, hrm, hdone⟩ := Option.bind_eq_some_iff.mp hrun
    obtain rfl := Option.some.inj hdone
    rw [rm_eq_some hrm]
    funext p
    by_cases hp : p = r.path
    · subst hp
      rw [Function.update_self, Overlay.write_of_some restored_path, hfound]
    · rw [Function.update_of_ne hp, Overlay.write_of_none]
      simp [restored, hp, hfound]
  | some n =>
    rw [if_pos (by simp [hfound])] at hrun
    cases n with
    | dir => exact absurd hfound (h.notDir hfile)
    | file content =>
      have hbacks : r.backs := ⟨hfile, by simp [hfound]⟩
      have hbackup : fs (temp pid r.index) = some (.file content) :=
        (hready.backup r List.mem_cons_self hbacks).trans hfound
      have hdir : fs r.path ≠ some .dir := hready.notDir r List.mem_cons_self hfile
      obtain ⟨fs₁, hmv, hdone⟩ := Option.bind_eq_some_iff.mp hrun
      obtain rfl := Option.some.inj hdone
      rw [mv_eq_some hbackup hdir hmv]
      funext p
      by_cases hp : p = r.path
      · subst hp
        rw [Function.update_self, Overlay.write_of_some restored_path, hfound]
      · rw [Function.update_of_ne hp]
        by_cases ht : p = temp pid r.index
        · subst ht
          have hgone : r.restored pid (temp pid r.index) = some none := by
            simp [restored, hp, hfound]
          rw [Function.update_self, Overlay.write_of_some hgone]
        · rw [Function.update_of_ne ht, Overlay.write_of_none]
          simp [restored, hp, ht]

theorem restored_spares (h : Sound pid older r) (hfile : r.isFile) {r' : Registration}
    (hr' : r' ∈ older) (hbacks : r'.backs) : r.restored pid (temp pid r'.index) = none := by
  unfold restored
  rw [if_neg (h.temp_ne r'.index), if_neg]
  rintro ⟨hfound, htemp⟩
  exact h.index ⟨hfile, hfound⟩ r' hr' hbacks (temp_injective htemp)

theorem restored_notDir (h : Sound pid older r) (hfile : r.isFile) (p : Path) :
    r.restored pid p ≠ some (some .dir) := by
  unfold restored
  split_ifs
  · intro hdir
    exact h.notDir hfile (Option.some.inj hdir)
  · simp
  · simp

theorem abortWrite_of_isFile (hfile : r.isFile) : r.abortWrite pid = r.restored pid := by
  funext p
  unfold isFile at hfile
  cases hmode : r.mode with
  | dir => exact absurd hmode hfile
  | add => simp only [abortWrite, hmode]
  | protect => simp only [abortWrite, hmode]

theorem abortCommands_of_isFile (hfile : r.isFile) : r.abortCommands pid = r.undo pid := by
  unfold isFile at hfile
  cases hmode : r.mode with
  | dir => exact absurd hmode hfile
  | add => cases hfound : r.found <;> simp [abortCommands, undo, hmode, hfound]
  | protect => cases hfound : r.found <;> simp [abortCommands, undo, hmode, hfound]

end

theorem abort_replays (pid : Nat) : Replays pid (abortCommands pid) (abortWrite pid) where
  exec r older fs fs' h hready hrun := by
    by_cases hfile : r.isFile
    · rw [abortCommands_of_isFile hfile] at hrun
      rw [abortWrite_of_isFile hfile]
      exact undo_exec h hready hfile hrun
    · have hmode : r.mode = .dir := not_not.mp hfile
      funext p
      cases hfound : r.found with
      | some n =>
        simp only [abortCommands, hmode, hfound] at hrun
        obtain rfl := Option.some.inj hrun
        rw [Overlay.write_of_none]
        simp [abortWrite, hmode, hfound]
      | none =>
        simp only [abortCommands, hmode, hfound] at hrun
        obtain rfl := Option.some.inj hrun
        by_cases hp : r.path <+: p
        · have hgone : r.abortWrite pid p = some none := by
            simp [abortWrite, hmode, hfound, hp]
          rw [Overlay.write_of_some hgone]
          exact if_pos hp
        · have hkept : r.abortWrite pid p = none := by
            simp [abortWrite, hmode, hp]
          rw [Overlay.write_of_none hkept]
          exact if_neg hp
  spares r older r' h hr' hbacks := by
    by_cases hfile : r.isFile
    · rw [abortWrite_of_isFile hfile]
      exact restored_spares h hfile hr' hbacks
    · have hmode : r.mode = .dir := not_not.mp hfile
      simp only [abortWrite, hmode]
      rw [if_neg]
      rintro ⟨hfound, hbelow⟩
      exact h.spares hmode hfound r' hr' hbacks hbelow
  notDir r older p h := by
    by_cases hfile : r.isFile
    · rw [abortWrite_of_isFile hfile]
      exact restored_notDir h hfile p
    · have hmode : r.mode = .dir := not_not.mp hfile
      simp only [abortWrite, hmode]
      split_ifs <;> simp

theorem commit_replays (pid : Nat) : Replays pid (commitCommands pid) (commitWrite pid) where
  exec r older fs fs' h hready hrun := by
    funext p
    cases hmode : r.mode with
    | dir =>
      simp only [commitCommands, hmode] at hrun
      obtain rfl := Option.some.inj hrun
      rw [Overlay.write_of_none]
      simp only [commitWrite, hmode]
    | add =>
      cases hfound : r.found with
      | none =>
        simp only [commitCommands, hmode, hfound] at hrun
        obtain rfl := Option.some.inj hrun
        rw [Overlay.write_of_none]
        simp [commitWrite, hmode, hfound]
      | some n =>
        simp only [commitCommands, hmode, hfound] at hrun
        obtain ⟨fs₁, hrm, hdone⟩ := Option.bind_eq_some_iff.mp hrun
        obtain rfl := Option.some.inj hdone
        rw [rm_eq_some hrm]
        by_cases ht : p = temp pid r.index
        · subst ht
          have hgone : r.commitWrite pid (temp pid r.index) = some none := by
            simp [commitWrite, hmode, hfound]
          rw [Function.update_self, Overlay.write_of_some hgone]
        · rw [Function.update_of_ne ht, Overlay.write_of_none]
          simp [commitWrite, hmode, ht]
    | protect =>
      have hundo : r.commitCommands pid = r.undo pid := by
        cases hfound : r.found <;> simp [commitCommands, undo, hmode, hfound]
      have hwrite : r.commitWrite pid = r.restored pid := by
        funext q
        simp only [commitWrite, hmode]
      rw [hundo] at hrun
      rw [hwrite, undo_exec h hready (by simp [isFile, hmode]) hrun]
  spares r older r' h hr' hbacks := by
    cases hmode : r.mode with
    | dir => simp only [commitWrite, hmode]
    | add =>
      simp only [commitWrite, hmode]
      rw [if_neg]
      rintro ⟨hfound, htemp⟩
      exact h.index ⟨by simp [isFile, hmode], hfound⟩ r' hr' hbacks (temp_injective htemp)
    | protect =>
      simp only [commitWrite, hmode]
      exact restored_spares h (by simp [isFile, hmode]) hr' hbacks
  notDir r older p h := by
    cases hmode : r.mode with
    | dir => simp only [commitWrite, hmode]; simp
    | add =>
      simp only [commitWrite, hmode]
      split_ifs <;> simp
    | protect =>
      simp only [commitWrite, hmode]
      exact restored_notDir h (by simp [isFile, hmode]) p

end Registration

end Awb.Transaction
