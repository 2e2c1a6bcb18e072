import Awb.Package.Commit

/-! The operations on a single package that lock it: `release` and `branch`, and `label` of
Subversion packages. -/

namespace Awb.Package
open Stage

/-- A step whose result is not looked at. -/
def Outcome.ignored : Outcome → Outcome
  | die => die
  | _ => ok

namespace Shop
variable {P : Type} [DecidableEq P]

def releaseLock (service : Service) (p : P) (s : Shop P) : Shop P :=
  s.setLocks (s.locks.releaseLock service (s.locks.lockname p)).2

/-- The number of a new branch. It is an error if it is malformed. -/
def startCsn (p : P) (t : List Char) : Stage P := fun s =>
  if isCsn (upgrade (s.name p) t) then (.ok, (s.setCsn p t).save p) else (.fail, s)

end Shop

/-- `m/^(\d+)\.(\d+)$/`. -/
def versionParts (version : List Char) : Option (List Char × List Char) :=
  match version.splitOn '.' with
  | [major, minor] => if isNumber major && isNumber minor then some (major, minor) else none
  | _ => none

/-- Whether there is no such name yet; listing the names may die. -/
def unusedName (names : Option (List (List Char))) (name : List Char) : Outcome :=
  match names with
  | none => .die
  | some names => if names.contains name then .fail else .ok

/-- What lets the steps of `release` succeed. -/
structure Release (P : Type) where
  package : P
  version : List Char
  repositoryDB : Outcome
  mergePoints : Bool
  branchtags : Option (List (List Char))
  service : Service
  upToDate : Outcome
  dependencies : Bool
  confirmed : Bool
  proceed : Bool
  tagBranch : Bool
  update : Bool
  mytags : Bool
  mergetags : Bool
  addMergePoints : Bool
  edit : Outcome
  upload : Upload
  tagPatch : Bool
  abortSucceeds : Bool
  commitSucceeds : Bool

/-- What lets the steps of `branch` succeed. -/
structure Branch (P : Type) where
  package : P
  branchname : List Char
  sanity : Outcome
  mergePoints : Bool
  branchtags : Option (List (List Char))
  service : Service
  upToDate : Outcome
  proceed : Bool
  tagBranch : Bool
  update : Bool
  copy : Outcome
  commitSucceeds : Bool
  abortSucceeds : Bool
  createLock : Bool
  branchService : Service
  rename : Bool
  addPackage : Bool
  removePackage : Bool
  mytags : Bool
  mergetags : Bool
  addMergePoints : Bool
  upload : Upload

/-- What lets the steps of `label` succeed. -/
structure Label (P : Type) where
  package : P
  labelname : List Char
  existing : Bool
  sanity : Outcome
  tags : Option (List (List Char))
  /-- The tag that is moved is already where it goes. -/
  applied : Bool
  service : Service
  upToDate : Outcome
  proceed : Bool
  copy : Outcome
  commitSucceeds : Bool
  lastService : Service

section
variable {P : Type} [DecidableEq P] (vc : P → Vcs)

/-- The steps under the transaction, each of which aborts it where it fails. -/
def releaseStage (a : Release P) (branchname : List Char) : Stage P :=
  (ask (.ofBool a.tagBranch)).andThen <|
  (ask (.ofBool a.update)).andThen <|
  (Shop.startCsn a.package ("CSN-".toList ++ branchname ++ "-1".toList)).andThen <|
  (ask (.ofBool a.mytags)).andThen <|
  (ask (.ofBool a.mergetags)).andThen <|
  (ask (.ofBool a.addMergePoints)).andThen <|
  (ask a.edit.ignored).andThen <|
  (commitArchive vc a.upload a.package).andThen <|
  ask (.ofBool a.tagPatch)

def release (a : Release P) (s : Shop P) : End × Shop P :=
  if vc a.package ≠ .cvs then (.returned false, s)
  else
    match versionParts a.version with
    | none => (.returned false, s)
    | some (major, minor) =>
      let branchname := s.name a.package ++ "-V".toList ++ major ++ '_' :: minor
      attempt a.repositoryDB s (.returned false, s) <|
      if a.mergePoints then (.returned false, s)
      else
        attempt (unusedName a.branchtags branchname) s (.returned false, s) <|
        match s.locks.acquireLock a.service (s.locks.lockname a.package) with
        | (false, k) => (.returned false, s.setLocks k)
        | (true, k) =>
          let s := s.setLocks k
          attempt a.upToDate s (.returned false, s.releaseLock a.service a.package) <|
          if a.dependencies && !a.confirmed || !a.proceed then
            (.returned false, s.releaseLock a.service a.package)
          else
            let (started, s) := s.start
            attempt started s (.died, s) <|
            let (released, s) := releaseStage vc a branchname s
            attempt released s (s.abort a.abortSucceeds) <|
            let s := s.releaseLock a.service a.package
            if a.commitSucceeds then (.returned true, s.commitTransaction) else (.died, s)

/-- The package file gets its new name, and in it the name and the lock of the branch. -/
def renamePackage (a : Branch P) (lockname : List Char) : Stage P := fun s =>
  let s := { s with name := Function.update s.name a.package a.branchname }
  if isCsn (upgrade a.branchname ['1']) then
    let s := s.setCsn a.package ['1']
    let s := s.setLocks { s.locks with
      lockname := Function.update s.locks.lockname a.package lockname }
    (.ok, s.save a.package)
  else (.fail, s)

/-- The steps under the lock of the branch, each of which returns where it fails. -/
def branchStage (a : Branch P) (lockname : List Char) : Stage P :=
  (ask (.ofBool a.rename)).andThen <|
  (renamePackage a lockname).andThen <|
  (ask (.ofBool a.addPackage)).andThen <|
  (ask (.ofBool a.removePackage)).andThen <|
  (ask (.ofBool a.mytags)).andThen <|
  (ask (.ofBool a.mergetags)).andThen <|
  (ask (.ofBool a.addMergePoints)).andThen <|
  commitArchive vc a.upload a.package

/-- The new package of a branch, which has a lock of its own. -/
def branchPackage (a : Branch P) (s : Shop P) : End × Shop P :=
  let lockname := "asim-".toList ++ a.branchname
  if !a.createLock then (.returned false, s)
  else
    match s.locks.acquireLock a.branchService lockname with
    | (false, k) => (.returned false, s.setLocks k)
    | (true, k) =>
      let (branched, s) := branchStage vc a lockname (s.setLocks k)
      attempt branched s (.returned false, s) <|
      let (unlocked, k) := s.locks.releaseLock a.branchService lockname
      (.returned unlocked, s.setLocks k)

/-- `branch`, once the repository has the branch. -/
def finishBranch (a : Branch P) (s : Shop P) : End × Shop P :=
  if !a.commitSucceeds then (.died, s)
  else
    let s := s.commitTransaction.releaseLock a.service a.package
    if vc a.package = .svn then (.returned true, s) else branchPackage vc a s

/-- Only CVS and Subversion packages have `find_branchtags`. -/
def branch (a : Branch P) (s : Shop P) : End × Shop P :=
  let kind := vc a.package
  if a.branchname = [] ∨ a.branchname = ['0'] then (.returned false, s)
  else
    attempt a.sanity.ignored s (.returned false, s) <|
    if kind ≠ .svn ∧ a.mergePoints then (.returned false, s)
    else
      let branchtags := if kind = .cvs ∨ kind = .svn then a.branchtags else none
      attempt (unusedName branchtags a.branchname) s (.returned false, s) <|
      match s.locks.acquireLock a.service (s.locks.lockname a.package) with
      | (false, k) => (.returned false, s.setLocks k)
      | (true, k) =>
        let s := s.setLocks k
        let upToDate := if kind = .svn then a.upToDate.ignored else a.upToDate
        attempt upToDate s (.returned false, s.releaseLock a.service a.package) <|
        if !a.proceed then (.returned false, s.releaseLock a.service a.package)
        else
          let (started, s) := s.start
          attempt started s (.died, s) <|
          match kind with
          | .cvs =>
            attempt (.ofBool (a.tagBranch && a.update)) s (s.abort a.abortSucceeds)
              (finishBranch vc a s)
          | .svn => attempt a.copy.ignored s (.died, s) (finishBranch vc a s)
          | _ => finishBranch vc a s

/-- `m/^[a-z0-9_.]+$/i`. -/
def isLabelname (t : List Char) : Bool :=
  !t.isEmpty && t.all fun c => c.isAlphanum || c = '_' || c = '.'

/-- Where the user does not want to go on but the lock cannot be released, the package is labelled
all the same. -/
def label (a : Label P) (s : Shop P) : End × Shop P :=
  if a.labelname = ['0'] ∨ !isLabelname a.labelname then (.returned false, s)
  else
    attempt a.sanity.ignored s (.returned false, s) <|
    match a.tags with
    | none => (.died, s)
    | some tags =>
      if a.existing ≠ tags.contains a.labelname then (.returned false, s)
      else if a.existing && a.applied then (.returned true, s)
      else
        match s.locks.acquireLock a.service (s.locks.lockname a.package) with
        | (false, k) => (.returned false, s.setLocks k)
        | (true, k) =>
          let s := s.setLocks k
          attempt a.upToDate.ignored s (.returned false, s) <|
          let (unlocked, k) :=
            if a.proceed then (false, s.locks)
            else s.locks.releaseLock a.service (s.locks.lockname a.package)
          let s := s.setLocks k
          if unlocked then (.returned false, s)
          else
            let (started, s) := s.start
            attempt started s (.died, s) <|
            attempt a.copy.ignored s (.died, s) <|
            if !a.commitSucceeds then (.died, s)
            else (.returned true, s.commitTransaction.releaseLock a.lastService a.package)

end

end Awb.Package
