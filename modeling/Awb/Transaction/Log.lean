import Awb.Transaction.Files
import Awb.Lib.Runs

/-! The transactions of `Asim::Xaction`: registrations of files and directories, edits of what is
registered in between, and the two logs that undo them. -/

namespace Awb.Transaction
open Command

/-- `/tmp/$index.$$.bak`. -/
def temp (pid index : Nat) : Path := ["tmp", toString index ++ "." ++ toString pid ++ ".bak"]

/-- The digits of the index end at the first dot. -/
theorem temp_injective {pid i j : Nat} (h : temp pid i = temp pid j) : i = j := by
  have hname : toString i ++ "." ++ toString pid ++ ".bak" =
      toString j ++ "." ++ toString pid ++ ".bak" := by
    simpa [temp] using h
  have hdigits : ∀ k : Nat, (toString k ++ "." ++ toString pid ++ ".bak").toList.takeWhile
      Char.isDigit = Nat.toDigits 10 k := by
    intro k
    have hk : ∀ c ∈ Nat.toDigits 10 k, c.isDigit = true := fun c hc =>
      Nat.isDigit_of_mem_toDigits (by decide) (by decide) hc
    simp only [String.toList_append, List.append_assoc]
    rw [show (toString k).toList = Nat.toDigits 10 k from Nat.toList_repr,
      List.takeWhile_append_of_pos hk]
    simp
  have hij : Nat.toDigits 10 i = Nat.toDigits 10 j := by
    rw [← hdigits i, ← hdigits j, hname]
  rw [← Nat.ofDigitChars_ten_toDigits (n := i), hij, Nat.ofDigitChars_ten_toDigits]

/-- The package's globals, and the files. -/
structure Xaction where
  files : Files
  abortLog : List Command := []
  commitLog : List Command := []
  index : Nat := 0

namespace Xaction

def start (x : Xaction) : Option Xaction :=
  if x.abortLog ≠ [] then none
  else some { x with
    abortLog := x.abortLog ++ [echo "Transaction Aborted"]
    commitLog := x.commitLog ++ [echo "Transaction Commited."] }

def addDir (dir : Path) (x : Xaction) : Option Xaction :=
  if x.abortLog = [] then none
  else if x.files dir ≠ none then some x
  else some { x with abortLog := rmDir dir :: x.abortLog }

/-- `system "cp $file $tempfile"`, whose result is not looked at. -/
def backUp (pid : Nat) (file : Path) (x : Xaction) : Files :=
  ((cp file (temp pid x.index)).run x.files).getD x.files

def addFile (pid : Nat) (file : Path) (x : Xaction) : Option Xaction :=
  if x.abortLog = [] then none
  else if x.files file ≠ none then some
    { files := x.backUp pid file
      abortLog := mv (temp pid x.index) file :: x.abortLog
      commitLog := rm (temp pid x.index) :: x.commitLog
      index := x.index + 1 }
  else some { x with abortLog := rm file :: x.abortLog }

def protectFile (pid : Nat) (file : Path) (x : Xaction) : Option Xaction :=
  if x.abortLog = [] then none
  else if x.files file = some .dir then none
  else if x.files file ≠ none then some
    { files := x.backUp pid file
      abortLog := mv (temp pid x.index) file :: x.abortLog
      commitLog := mv (temp pid x.index) file :: x.commitLog
      index := x.index + 1 }
  else some { x with
    abortLog := rm file :: x.abortLog
    commitLog := rm file :: x.commitLog }

def commit (x : Xaction) : Option Xaction :=
  if x.abortLog = [] then none
  else (runAll x.commitLog x.files).map fun fs =>
    { x with files := fs, commitLog := [], abortLog := [] }

def abort (x : Xaction) : Option Xaction :=
  if x.abortLog = [] then some x
  else (runAll x.abortLog x.files).map fun fs =>
    { x with files := fs, commitLog := [], abortLog := [] }

end Xaction

inductive Mode
  | add
  | protect
  | dir
  deriving DecidableEq, Repr

/-- A call that registered a path, what it found there, and the index it was made at. -/
structure Registration where
  path : Path
  mode : Mode
  found : Option Node
  index : Nat
  deriving DecidableEq, Repr

namespace Registration

def isFile (r : Registration) : Prop := r.mode ≠ .dir

/-- The registration made a backup. -/
def backs (r : Registration) : Prop := r.isFile ∧ r.found ≠ none

instance (r : Registration) : Decidable r.isFile := inferInstanceAs (Decidable (r.mode ≠ .dir))

end Registration

/-- A transaction with the registrations so far, newest first. -/
structure Session where
  x : Xaction
  history : List Registration

inductive Event
  | addFile (file : Path)
  | protectFile (file : Path)
  | addDir (dir : Path)
  | write (file : Path) (content : String)
  | delete (file : Path)
  | mkdir (dir : Path)
  | rmdir (dir : Path)
  deriving DecidableEq, Repr

namespace Session

def isFile (s : Session) (p : Path) : Prop := ∃ r ∈ s.history, r.isFile ∧ r.path = p

def isDir (s : Session) (p : Path) : Prop := ∃ r ∈ s.history, r.mode = .dir ∧ r.path = p

def edit (s : Session) (p : Path) (n : Option Node) : Session :=
  { s with x := { s.x with files := Function.update s.x.files p n } }

def register (s : Session) (mode : Mode) (p : Path) (x : Xaction) : Session where
  x := x
  history := { path := p, mode, found := s.x.files p, index := s.x.index } :: s.history

end Session

/-- Calls whose commands succeed, and edits: a registered file may be written and deleted, a
registered directory made and, when it is empty, removed. Names of backups are not registered. -/
inductive Step (pid : Nat) (s : Session) : Event → Session → Prop
  | addFile {p : Path} {x : Xaction} : (∀ i, p ≠ temp pid i) →
      (s.x.files p = none ∨ ((cp p (temp pid s.x.index)).run s.x.files).isSome) →
      s.x.addFile pid p = some x → Step pid s (.addFile p) (s.register .add p x)
  | protectFile {p : Path} {x : Xaction} : (∀ i, p ≠ temp pid i) →
      (s.x.files p = none ∨ ((cp p (temp pid s.x.index)).run s.x.files).isSome) →
      s.x.protectFile pid p = some x → Step pid s (.protectFile p) (s.register .protect p x)
  | addDir {p : Path} {x : Xaction} : (∀ i, p ≠ temp pid i) →
      s.x.addDir p = some x → Step pid s (.addDir p) (s.register .dir p x)
  | write {p : Path} {content : String} : s.isFile p → s.x.files.hasParent p = true →
      Step pid s (.write p content) (s.edit p (some (.file content)))
  | delete {p : Path} : s.isFile p → Step pid s (.delete p) (s.edit p none)
  | mkdir {p : Path} : s.isDir p → ¬ s.isFile p → s.x.files p = none →
      s.x.files.hasParent p = true → Step pid s (.mkdir p) (s.edit p (some .dir))
  | rmdir {p : Path} : s.isDir p → s.x.files p = some .dir →
      (∀ name, s.x.files (p ++ [name]) = none) → Step pid s (.rmdir p) (s.edit p none)

end Awb.Transaction
