import Mathlib.Logic.Function.Basic
import Mathlib.Tactic

/-! The dependency objects between instructions: an output and the inputs that wait for its
value, on a list that starts at the output. Loops over the list carry fuel; an operation gives
`none` where an assertion fails or a loop does not end. -/

namespace Awb.Dependency
variable {ι κ ν : Type}

/-- The members of `INPUT_DEP_CLASS` (by `ι`) and `OUTPUT_DEP_CLASS` (by `κ`), and which
instructions (by `ν`) are killed. `built` holds the inputs whose dependency graph was built. -/
structure Deps (ι κ ν : Type) where
  nextConsumer : ι → Option ι
  prevConsumer : ι → Option ι
  producer : ι → Option κ
  cycleReadyForIssue : ι → UInt64
  inst : ι → Option ν
  consumer : κ → Option ι
  cycleValueProduced : κ → UInt64
  cycleIssued : κ → UInt64
  cycleDependentsCanIssue : κ → UInt64
  prevProducer : κ → Option κ
  nextProducer : κ → Option κ
  instOut : κ → Option ν
  isKilled : ν → Bool
  built : List ι

def uint64Max : UInt64 := 0xFFFFFFFFFFFFFFFF

section loops
variable [DecidableEq ι] [DecidableEq κ] (next : ι → Option ι)

/-- `while (consumer->GetNextConsumer())`. -/
def lastConsumer : Nat → ι → Option ι
  | 0, _ => none
  | n + 1, consumer =>
    match next consumer with
    | none => some consumer
    | some consumer' => lastConsumer n consumer'

/-- The loop of `INPUT_DEP_CLASS::RemoveDependencyLinks`: `consumer` and `youngestConsumer`. -/
def findConsumer (this : ι) : Nat → Option ι → Option ι → Option (Option ι × Option ι)
  | _, none, youngest => some (none, youngest)
  | 0, some _, _ => none
  | n + 1, some consumer, youngest =>
    if consumer = this then some (some consumer, youngest)
    else findConsumer this n (next consumer) (some consumer)

/-- The loop of `OUTPUT_DEP_CLASS::RemoveDependencyLinks`, which nulls the links behind it. -/
def cutConsumers (producer : ι → Option κ) (this : κ) :
    Nat → Option ι → (ι → Option ι) → Option (ι → Option ι)
  | _, none, next => some next
  | 0, some _, _ => none
  | n + 1, some consumer, next =>
    if producer consumer = some this ∨ producer consumer = none then
      cutConsumers producer this n (next consumer) (Function.update next consumer none)
    else none

/-- The loop of `SignalConsumers`. -/
def signal (cycle : UInt64) : Nat → Option ι → (ι → UInt64) → Option (ι → UInt64)
  | _, none, ready => some ready
  | 0, some _, _ => none
  | n + 1, some consumer, ready =>
    signal cycle n (next consumer) (Function.update ready consumer cycle)

end loops

namespace Deps
variable [DecidableEq ι] (d : Deps ι κ ν)

def setNext (x : ι) (n : Option ι) : Deps ι κ ν :=
  { d with nextConsumer := Function.update d.nextConsumer x n }

def setPrev (x : ι) (p : Option ι) : Deps ι κ ν :=
  { d with prevConsumer := Function.update d.prevConsumer x p }

def setProducer (x : ι) (p : Option κ) : Deps ι κ ν :=
  { d with producer := Function.update d.producer x p }

def setReady (x : ι) (cycle : UInt64) : Deps ι κ ν :=
  { d with cycleReadyForIssue := Function.update d.cycleReadyForIssue x cycle }

def setConsumer [DecidableEq κ] (p : κ) (c : Option ι) : Deps ι κ ν :=
  { d with consumer := Function.update d.consumer p c }

def nullInst (x : ι) : Deps ι κ ν := { d with inst := Function.update d.inst x none }

/-- `this->GetInst() && this->GetInst()->IsKilled()`. -/
def instKilled (x : ι) : Bool := (d.inst x).any d.isKilled

/-- A list of consumers holds inputs that were built. -/
def fuel : Nat := d.built.length

section
variable {d : Deps ι κ ν} {x : ι}

@[simp] theorem setPrev_nextConsumer {p : Option ι} :
    (d.setPrev x p).nextConsumer = d.nextConsumer := rfl

@[simp] theorem setPrev_consumer {p : Option ι} : (d.setPrev x p).consumer = d.consumer := rfl

@[simp] theorem setPrev_fuel {p : Option ι} : (d.setPrev x p).fuel = d.fuel := rfl

@[simp] theorem setPrev_instKilled {p : Option ι} :
    (d.setPrev x p).instKilled = d.instKilled := rfl

@[simp] theorem setProducer_nextConsumer {p : Option κ} :
    (d.setProducer x p).nextConsumer = d.nextConsumer := rfl

@[simp] theorem setProducer_consumer {p : Option κ} :
    (d.setProducer x p).consumer = d.consumer := rfl

@[simp] theorem setProducer_fuel {p : Option κ} : (d.setProducer x p).fuel = d.fuel := rfl

@[simp] theorem setProducer_instKilled {p : Option κ} :
    (d.setProducer x p).instKilled = d.instKilled := rfl

end

variable [DecidableEq κ]

/-- `INPUT_DEP_CLASS::BuildRAWDependencyGraph`. -/
def buildRAWDependencyGraph (this : ι) (producer : Option κ) (cycle : UInt64) :
    Option (Deps ι κ ν) :=
  let d := { d with built := this :: d.built }
  match producer with
  | none => some (d.setReady this cycle)
  | some p =>
    if d.cycleValueProduced p ≤ cycle then some ((d.setProducer this (some p)).setReady this cycle)
    else
      let hooked : Option (Deps ι κ ν) := match d.consumer p with
        | none => some (d.setConsumer p (some this))
        | some consumer =>
          (lastConsumer d.nextConsumer d.fuel consumer).map fun last =>
            (d.setPrev this (some last)).setNext last (some this)
      hooked.map fun d =>
        let d := (d.setNext this none).setProducer this (some p)
        if d.cycleIssued p ≠ uint64Max then d.setReady this (d.cycleDependentsCanIssue p) else d

/-- `INPUT_DEP_CLASS::RemoveSingleDependencyLink`. -/
def removeSingleDependencyLink (this : ι) : Option (Deps ι κ ν) :=
  let next := d.nextConsumer this
  let prev := d.prevConsumer this
  let prod := d.producer this
  let d := d.nullInst this
  let headed : Option (Deps ι κ ν) := match prod with
    | some p =>
      if d.consumer p = some this then
        if prev = none then some (d.setConsumer p next) else none
      else some d
    | none => some d
  headed.map fun d =>
    let d := match next with
      | some n => d.setPrev n prev
      | none => d
    let d := match prev with
      | some p => d.setNext p next
      | none => d
    ((d.setNext this none).setPrev this none).setProducer this none

/-- `OUTPUT_DEP_CLASS::RemoveDependencyLinks`. -/
def removeOutputLinks (this : κ) : Option (Deps ι κ ν) :=
  let consumer := d.consumer this
  let d := d.setConsumer this none
  (cutConsumers d.producer this d.fuel consumer d.nextConsumer).map fun next =>
    { d with nextConsumer := next }

/-- `INPUT_DEP_CLASS::RemoveDependencyLinks`. -/
def removeDependencyLinks (this : ι) : Option (Deps ι κ ν) :=
  let prod := d.producer this
  let d := (d.setPrev this none).setProducer this none
  let unlinked : Option (Deps ι κ ν) := match prod with
    | none => some d
    | some p =>
      if d.instKilled this then
        (findConsumer d.nextConsumer this d.fuel (d.consumer p) none).bind fun found =>
          match found with
          | (none, _) => some d
          | (some consumer, none) =>
            if d.consumer p = some consumer then
              some ((d.setConsumer p (d.nextConsumer consumer)).setNext consumer none)
            else none
          | (some consumer, some youngest) =>
            some ((d.setNext youngest (d.nextConsumer consumer)).setNext consumer none)
      else d.removeOutputLinks p
  unlinked.filter fun d => d.producer this = none && d.nextConsumer this = none

/-- `INPUT_DEP_CLASS::CleanUpLinks`. -/
def cleanUpLinks (this : ι) : Option (Deps ι κ ν) :=
  ((d.removeDependencyLinks this).map fun d => d.nullInst this).filter fun d =>
    d.producer this = none

/-- `OUTPUT_DEP_CLASS::CleanUpLinks`. -/
def cleanUpOutputLinks (this : κ) : Option (Deps ι κ ν) :=
  let next := d.nextProducer this
  let prev := d.prevProducer this
  (d.removeOutputLinks this).map fun d =>
    let prevProducer := match next with
      | some n => Function.update d.prevProducer n prev
      | none => d.prevProducer
    let nextProducer := match prev with
      | some p => Function.update d.nextProducer p next
      | none => d.nextProducer
    { d with
      instOut := Function.update d.instOut this none
      prevProducer := Function.update prevProducer this none
      nextProducer := Function.update nextProducer this none }

/-- `OUTPUT_DEP_CLASS::BuildOutputDependencyGraph`. -/
def buildOutputDependencyGraph (this : κ) (prevProducer : Option κ) : Deps ι κ ν :=
  { d with
    prevProducer := Function.update d.prevProducer this prevProducer
    nextProducer := match prevProducer with
      | some p => Function.update d.nextProducer p (some this)
      | none => d.nextProducer }

/-- `OUTPUT_DEP_CLASS::UpdateConsumersIssueTime`. -/
def updateConsumersIssueTime (this : κ) : Option (Deps ι κ ν) :=
  (signal d.nextConsumer (d.cycleDependentsCanIssue this) d.fuel (d.consumer this)
    d.cycleReadyForIssue).map fun ready => { d with cycleReadyForIssue := ready }

end Deps

/-- What happens to the objects: their own operations, the setters of an output's cycles, and
an instruction that is killed. -/
inductive Op (ι κ ν : Type)
  | build (this : ι) (producer : Option κ) (cycle : UInt64)
  | removeSingle (this : ι)
  | remove (this : ι)
  | cleanUp (this : ι)
  | removeOutput (this : κ)
  | cleanUpOutput (this : κ)
  | buildOutput (this : κ) (prevProducer : Option κ)
  | update (this : κ)
  | setCycles (this : κ) (valueProduced issued dependentsCanIssue : UInt64)
  | kill (inst : ν)

namespace Op
variable [DecidableEq ι] [DecidableEq κ] [DecidableEq ν]

def apply : Op ι κ ν → Deps ι κ ν → Option (Deps ι κ ν)
  | build x p cycle, d => d.buildRAWDependencyGraph x p cycle
  | removeSingle x, d => d.removeSingleDependencyLink x
  | remove x, d => d.removeDependencyLinks x
  | cleanUp x, d => d.cleanUpLinks x
  | removeOutput p, d => d.removeOutputLinks p
  | cleanUpOutput p, d => d.cleanUpOutputLinks p
  | buildOutput p q, d => some (d.buildOutputDependencyGraph p q)
  | update p, d => d.updateConsumersIssueTime p
  | setCycles p produced issued canIssue, d => some
    { d with
      cycleValueProduced := Function.update d.cycleValueProduced p produced
      cycleIssued := Function.update d.cycleIssued p issued
      cycleDependentsCanIssue := Function.update d.cycleDependentsCanIssue p canIssue }
  | kill i, d => some { d with isKilled := Function.update d.isKilled i true }

/-- Each input is built once. -/
def Legal (d : Deps ι κ ν) : Op ι κ ν → Prop
  | build x _ _ => x ∉ d.built
  | _ => True

end Op

/-- Objects as their constructors leave them, for any instructions. -/
structure Deps.Fresh (d : Deps ι κ ν) : Prop where
  nextConsumer : ∀ x, d.nextConsumer x = none
  prevConsumer : ∀ x, d.prevConsumer x = none
  producer : ∀ x, d.producer x = none
  consumer : ∀ p, d.consumer p = none
  built : d.built = []

/-- A legal operation that passes its assertions and ends. -/
def DepStep [DecidableEq ι] [DecidableEq κ] [DecidableEq ν]
    (d : Deps ι κ ν) (op : Op ι κ ν) (d' : Deps ι κ ν) : Prop :=
  op.Legal d ∧ op.apply d = some d'

section
variable [DecidableEq ι]

instance (d : Deps ι κ ν) : (op : Op ι κ ν) → Decidable (op.Legal d)
  | .build x _ _ => inferInstanceAs (Decidable (x ∉ d.built))
  | .removeSingle _ | .remove _ | .cleanUp _ | .removeOutput _ | .cleanUpOutput _
  | .buildOutput _ _ | .update _ | .setCycles _ _ _ _ | .kill _ => isTrue trivial

variable [DecidableEq κ] [DecidableEq ν]

/-- The step of an operation whose condition holds, as it is computed. -/
def Deps.step (ok : Deps ι κ ν → Op ι κ ν → Bool) (d : Deps ι κ ν) (op : Op ι κ ν) :
    Option (Deps ι κ ν) :=
  if ok d op ∧ op.Legal d then op.apply d else none

theorem depStep_of_step {ok : Deps ι κ ν → Op ι κ ν → Bool} {d d' : Deps ι κ ν} {op : Op ι κ ν}
    (h : d.step ok op = some d') : ok d op = true ∧ DepStep d op d' := by
  unfold Deps.step at h
  split at h
  · rename_i hok
    exact ⟨hok.1, hok.2, h⟩
  · cases h

end

end Awb.Dependency
