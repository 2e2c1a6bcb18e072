import Awb.Package.Csn
import Awb.Package.Locks

/-! `commit` and `push_package`: the stages of a group of packages, between the locks and under a
transaction. -/

namespace Awb.Package

/-- The kinds of packages; the others are copy, bitkeeper, p4 and unknown. `type` is a word for all
of them, so `commit` never leaves out the locks. -/
inductive Vcs
  | cvs
  | svn
  | git
  | hg
  | other
  deriving DecidableEq, Repr

/-- These kinds have stages of their own. -/
def Vcs.pushes : Vcs → Bool
  | git | hg => true
  | _ => false

/-- The packages: the name and the CSN of each object, the CSN in its file, the locks, and in a
transaction the backups that it made of package files, newest first. -/
structure Shop (P : Type) where
  name : P → List Char
  value : P → List Char
  saved : P → List Char
  backups : Option (List (P × List Char)) := none
  locks : Locks P

/-- The user's answers in `commit_dilemma`. -/
inductive Choice
  | again
  | manually
  | abort
  deriving DecidableEq, Repr

/-- The loop around a command of the version control system. There is an answer for every time that
it failed, until it succeeds. Aborting it is asking to keep the lock. -/
def dilemmas : List Choice → Bool
  | [] => true
  | .again :: choices => dilemmas choices
  | .manually :: _ => true
  | .abort :: _ => false

/-- The two loops of `commit_archive`. -/
structure Upload where
  commit : List Choice := []
  tag : List Choice := []

abbrev Stage (P : Type) := Shop P → Outcome × Shop P

namespace Stage
variable {P : Type}

def ask (o : Outcome) : Stage P := fun s => (o, s)

def andThen (f g : Stage P) : Stage P := fun s =>
  match f s with
  | (.ok, s) => g s
  | (o, s) => (o, s)

/-- A stage for one package after the other, as long as they succeed. -/
def each (f : P → Stage P) : List P → Stage P
  | [] => ask .ok
  | p :: ps => (f p).andThen (each f ps)

theorem andThen_assoc (f g h : Stage P) :
    (f.andThen g).andThen h = f.andThen (g.andThen h) := by
  funext s
  unfold andThen
  rcases f s with ⟨o, s⟩
  cases o <;> rfl

end Stage

namespace Shop
variable {P : Type} [DecidableEq P]

def csn (s : Shop P) (p : P) : Option (List Char) := readCsn (s.name p) (s.value p)

/-- `csn($value)`; a malformed value is not taken. -/
def setCsn (p : P) (t : List Char) (s : Shop P) : Shop P :=
  if isCsn (upgrade (s.name p) t) then
    { s with value := Function.update s.value p (upgrade (s.name p) t) }
  else s

/-- `increment_csn`. Subversion packages are given the number of the next revision, if the status of
the working copy can be read. -/
def incrementCsn (kind : Vcs) (revision : Option Nat) (p : P) (s : Shop P) : Shop P :=
  match s.csn p with
  | none => s
  | some t =>
    let number := if kind = .svn then revision else some (serial t)
    match number.bind successor with
    | none => s
    | some digits => s.setCsn p (stem t ++ digits)

def save (p : P) (s : Shop P) : Shop P :=
  { s with saved := Function.update s.saved p (s.value p) }

/-- `Asim::Xaction::start`, which dies in a transaction. -/
def start (s : Shop P) : Outcome × Shop P :=
  if s.backups.isSome then (.die, s) else (.ok, { s with backups := some [] })

/-- `add_file` of a package's file. -/
def addFile (p : P) (s : Shop P) : Shop P :=
  { s with backups := s.backups.map fun backups => (p, s.saved p) :: backups }

/-- The package files when the backups are moved back. -/
def restore (backups : List (P × List Char)) (saved : P → List Char) : P → List Char :=
  backups.foldl (fun saved b => Function.update saved b.1 b.2) saved

/-- `Asim::Xaction::abort` and a return; it dies where a command of its log fails. -/
def abort (succeeds : Bool) (s : Shop P) : End × Shop P :=
  if succeeds then
    (.returned false, { s with
      saved := restore (s.backups.getD []) s.saved
      backups := none })
  else (.died, s)

def commitTransaction (s : Shop P) : Shop P := { s with backups := none }

def setLocks (s : Shop P) (k : Locks P) : Shop P := { s with locks := k }

omit [DecidableEq P] in
theorem start_of_none {s : Shop P} {k : Locks P} (h : s.backups = none) :
    (s.setLocks k).start = (.ok, { s.setLocks k with backups := some [] }) := by
  simp [start, setLocks, h]

omit [DecidableEq P] in
theorem start_of_some {s : Shop P} {k : Locks P} {backups : List (P × List Char)}
    (h : s.backups = some backups) : (s.setLocks k).start = (.die, s.setLocks k) := by
  simp [start, setLocks, h]

def unlockall (service : Service) (ps : List P) (s : Shop P) : Shop P :=
  s.setLocks (s.locks.unlockall service ps)

end Shop

/-- An attempt to commit a package or to push it: what the user, the lock service, the version
control system and the files let its steps do. -/
structure Attempt (P : Type) where
  self : P
  onlySelf : Bool
  /-- `get_dependent_packages`, which lists no package twice. -/
  dependents : List P
  nodup : dependents.Nodup
  isprivate : P → Bool
  service : Service
  sanity : Outcome
  check : P → Outcome
  /-- The status after the check is not `No-commit-needed` or `No-push-needed`. -/
  needed : P → Bool
  gold : P → Outcome
  wanted : P → Outcome
  results : P → Outcome
  revision : P → Option Nat
  mytags : P → Outcome
  changes : P → Outcome
  ipchist : P → Outcome
  proceed : Bool
  upload : P → Upload
  push : P → Outcome
  regtest : P → Outcome
  abortSucceeds : Bool
  commitSucceeds : Bool

section
variable {P : Type} [DecidableEq P] (vc : P → Vcs) (a : Attempt P)
open Stage

/-- The packages that are committed together. -/
def Attempt.all : List P := if a.onlySelf then [a.self] else a.dependents.filter a.isprivate

/-- Every package is checked before a failed check stops the commit. -/
def checkAll (check : P → Outcome) : List P → Bool → Outcome
  | [], stopCommit => if stopCommit then .fail else .ok
  | p :: ps, stopCommit =>
    match check p with
    | .ok => checkAll check ps stopCommit
    | .fail => checkAll check ps true
    | .die => .die

def updateCsns (p : P) : Stage P := fun s =>
  (a.mytags p, (s.addFile p).incrementCsn (vc p) (a.revision p) p)

def prepareStage (p : P) : Stage P :=
  if !a.needed p then ask .ok
  else
    (ask (a.gold p)).andThen <|
    (ask (a.wanted p)).andThen <|
    (ask (a.results p)).andThen <|
    (if (vc p).pushes then ask .ok else (updateCsns vc a p).andThen (ask (a.changes p))).andThen <|
    ask (a.ipchist p)

/-- The lock is kept where the user aborts. -/
def commitArchive (upload : Upload) (p : P) : Stage P := fun s =>
  let s := s.save p
  let kept := s.setLocks (s.locks.keep p)
  match vc p with
  | .cvs =>
    if dilemmas upload.commit && dilemmas upload.tag then (.ok, s) else (.fail, kept)
  | .svn => if dilemmas upload.commit then (.ok, s) else (.fail, kept)
  | _ => (.fail, s)

/-- The status of a package that pushes is never `No-commit-needed`. -/
def commitStage (p : P) : Stage P :=
  if !a.needed p && !(vc p).pushes then ask .ok
  else (commitArchive vc (a.upload p) p).andThen (ask (a.regtest p))

def pushArchive (p : P) : Stage P := fun s => (a.push p, s.save p)

/-- Only the kinds that push have this method. -/
def pushStage (p : P) : Stage P :=
  if !(vc p).pushes then ask .die
  else if !a.needed p then ask .ok
  else (pushArchive a p).andThen (ask (a.regtest p))

/-- What `commit` and `push_package` share, from the locks on. They differ in the last stage and in
what they do where a package cannot be prepared. -/
def submit (publish : P → Stage P) (unprepared : Shop P → End × Shop P) (s : Shop P) :
    End × Shop P :=
  match s.locks.lockall a.service a.all [] with
  | (false, k) => (.returned false, s.setLocks k)
  | (true, k) =>
    let s := s.setLocks k
    attempt (checkAll a.check a.all false) s (.returned false, s.unlockall a.service a.all) <|
    let (started, s) := s.start
    attempt started s (.died, s) <|
    let (prepared, s) := each (prepareStage vc a) a.all s
    attempt prepared s (unprepared s) <|
    if !a.proceed then (s.unlockall a.service a.all).abort a.abortSucceeds
    else
      let (published, s) := each publish a.all s
      attempt published s ((s.unlockall a.service a.all).abort a.abortSucceeds) <|
      if a.commitSucceeds then (.returned true, s.commitTransaction.unlockall a.service a.all)
      else (.died, s)

def commit (s : Shop P) : End × Shop P :=
  attempt a.sanity s (.returned false, s) <|
  submit vc a (commitStage vc a) (fun s => (s.unlockall a.service a.all).abort a.abortSucceeds) s

/-- `unlockall(@all)` is no call of the method, and there is no such function: where a package
cannot be prepared, the push dies. -/
def pushPackage (s : Shop P) : End × Shop P :=
  attempt a.sanity s (.returned false, s) <|
  submit vc a (pushStage vc a) (fun s => (.died, s)) s

end

end Awb.Package
