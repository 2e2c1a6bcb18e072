import Awb.Coverage.Parents

/-! The sets of files that `model-coverage` computes. Each is computed when it is first asked for,
and some enter the references that they come across in the table of parents. -/

namespace Awb.Coverage

/-- The options that the sets depend on. -/
structure Options where
  experiments : Text
  package : Text
  model : Text
  changed : Text

namespace Options
variable (o : Options)

def types : List Text := perlSplit ',' o.experiments

def initChangedApm : List Text := ((perlSplit ',' o.changed).filter isApm).foldl setAdd []

def initChangedAwb : List Text :=
  ((perlSplit ',' o.changed).filter fun f => !isApm f && isAwb f).foldl setAdd []

def initChangedSource : List Text :=
  ((perlSplit ',' o.changed).filter fun f => !isApm f && !isAwb f).foldl setAdd []

end Options

def modelsExtensions : List Text := ["models".toList, "exp".toList]

/-- The global lists, where `none` is a list that has not been computed. -/
structure State where
  expFiles : List Text
  apmFiles : Option (List Text)
  awbFiles : Option (List Text)
  allExp : Option (List Text)
  allApm : Option (List Text)
  allAwb : Option (List Text)
  allSourceFiles : Option (List Text)
  missedApm : Option (List Text)
  changedExp : Option (List Text)
  changedApm : Option (List Text)
  changedAwb : Option (List Text)
  child2Parent : Child2Parent

/-- `sort`, which compares characters by their codes. -/
def sortFiles (files : List Text) : List Text :=
  files.insertionSort fun a b => List.lex b a (fun x y => Nat.blt x.toNat y.toNat) = false

namespace Repository
variable (r : Repository) (o : Options)

/-- The experiments files of the given types in some packages. -/
def experimentsIn (packages : List Text) : List Text :=
  packages.flatMap fun pkg => o.types.flatMap fun type => modelsExtensions.flatMap
    fun ext => r.globExperiments pkg type ext

/-- The packages whose experiments are run. -/
def chosenPackages : List Text := if o.package ≠ [] then [o.package] else r.packages

def getExpAll (s : State) : List Text × State :=
  match s.allExp with
  | some files => (files, s)
  | none =>
    let found := r.experimentsIn o r.packages
    let files := found.foldl setAdd []
    let table := (scan r.getApmsFromExp found ([], s.child2Parent)).2
    (files, { s with allExp := some files, child2Parent := table })

def getApmS (s : State) : List Text × State :=
  match s.apmFiles with
  | some files => (files, s)
  | none =>
    let files := sortFiles ((s.expFiles.flatMap r.getApmsFromExp).foldl setAdd [])
    (files, { s with apmFiles := some files })

/-- `none` if the recursion into submodels takes more fuel. -/
def getApmSubModels (fuel : Nat) (s : State) : Option State :=
  let apms := r.getApmS s
  if apms.1.all fun apm => (r.getApmsFromApm fuel apm).isSome then
    let found := scan (fun apm => (r.getApmsFromApm fuel apm).getD []) apms.1 ([], s.child2Parent)
    some { apms.2 with
      apmFiles := some (found.1.foldl setAdd apms.1)
      child2Parent := found.2 }
  else none

def getApmAll (s : State) : List Text × State :=
  match s.allApm with
  | some files => (files, s)
  | none =>
    let files := (r.packages.flatMap r.findApm).foldl setAdd []
    (files, { s with allApm := some files })

def getApmMissed (s : State) : List Text × State :=
  match s.missedApm with
  | some files => (files, s)
  | none =>
    let used := r.getApmS s
    let all := r.getApmAll used.2
    let files := setInBnotA used.1 all.1
    (files, { all.2 with missedApm := some files })

def getAwbS (s : State) : List Text × State :=
  match s.awbFiles with
  | some files => (files, s)
  | none =>
    let apms := r.getApmS s
    let found := scan r.getAwbsFromApm apms.1 ([], s.child2Parent)
    let files := sortFiles found.1
    (files, { apms.2 with awbFiles := some files, child2Parent := found.2 })

def getAwbAll (s : State) : List Text × State :=
  match s.allAwb with
  | some files => (files, s)
  | none =>
    let files := (r.packages.flatMap r.findAwb).foldl setAdd []
    (files, { s with allAwb := some files })

def getCAll (s : State) : List Text × State :=
  match s.allSourceFiles with
  | some files => (files, s)
  | none =>
    let awbs := r.getAwbAll s
    let found := scan r.getSourcesFromAwb awbs.1 ([], awbs.2.child2Parent)
    let files := sortFiles found.1
    (files, { awbs.2 with allSourceFiles := some files, child2Parent := found.2 })

def getAwbChanged (s : State) : List Text × State :=
  match s.changedAwb with
  | some files => (files, s)
  | none =>
    let s := (r.getCAll s).2
    let files := o.initChangedSource.foldl (fun changed src =>
      (getParents s.child2Parent src).foldl setAdd changed) o.initChangedAwb
    (files, { s with changedAwb := some files })

/-- The models of a module, and with each the models that it is recorded as a submodel of. -/
def addModels (table : Child2Parent) (changed : List Text) (awb : Text) : List Text :=
  (getParents table awb).foldl (fun changed apm =>
    ((getParents table apm).filter isApm).foldl setAdd (setAdd changed apm)) changed

def getApmChanged (s : State) : List Text × State :=
  match s.changedApm with
  | some files => (files, s)
  | none =>
    let missed := r.getApmMissed (r.getAwbS s).2
    let table := (scan r.getAwbsFromApm missed.1 ([], missed.2.child2Parent)).2
    let awbs := r.getAwbChanged o { missed.2 with child2Parent := table }
    let files := awbs.1.foldl (addModels awbs.2.child2Parent) o.initChangedApm
    (files, { awbs.2 with changedApm := some files })

def getExpChanged (s : State) : List Text × State :=
  match s.changedExp with
  | some files => (files, s)
  | none =>
    let apms := r.getApmChanged o (r.getExpAll o s).2
    let files := apms.1.foldl (fun changed apm =>
      ((getParents apms.2.child2Parent apm).filter fun exp => !isApm exp).foldl setAdd changed) []
    (files, { apms.2 with changedExp := some files })

/-- The lists before the submodels are added. -/
def start : State :=
  let s : State := ⟨[], none, none, none, none, none, none, none, none, none, none, fun _ => []⟩
  if o.model ≠ [] then { s with apmFiles := some [o.model] }
  else { s with expFiles := (r.experimentsIn o (r.chosenPackages o)).foldl setAdd [] }

/-- The main program up to the first set that it prints. -/
def setUp (fuel : Nat) : Option State := r.getApmSubModels fuel (r.start o)

/-- A set that the main program may print. -/
inductive Request
  | expAll
  | expChanged
  | apmAll
  | apmMissed
  | apmChanged
  | awbS
  | awbAll
  | awbChanged
  | cAll

/-- The state after a set has been computed. -/
def request (s : State) : Request → State
  | .expAll => (r.getExpAll o s).2
  | .expChanged => (r.getExpChanged o s).2
  | .apmAll => (r.getApmAll s).2
  | .apmMissed => (r.getApmMissed s).2
  | .apmChanged => (r.getApmChanged o s).2
  | .awbS => (r.getAwbS s).2
  | .awbAll => (r.getAwbAll s).2
  | .awbChanged => (r.getAwbChanged o s).2
  | .cAll => (r.getCAll s).2

end Repository

end Awb.Coverage
