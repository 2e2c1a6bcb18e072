import Awb.Dependency.Objects

/-! The table of the producers of registers, `GENERIC_DEP_STATE_CLASS`. Each entry is the youngest
producer of a register; older ones are found along `prevProducer`. -/

namespace Awb.Dependency
variable {ι κ ν : Type}

/-- The members of the table; an entry beyond `numDependencies` is never used. -/
structure DepTable (κ : Type) where
  numDependencies : ℕ
  numRotatingRegs : ℕ
  rotates : numRotatingRegs ≤ numDependencies
  producers : ℕ → Option κ

namespace DepTable
variable (t : DepTable κ)

def startOfRotation : ℕ := t.numDependencies - t.numRotatingRegs

/-- The number of a physical register, `none` where an assertion fails. -/
def getRotatedRegNum (virtualNum rrb : ℕ) : Option ℕ :=
  if virtualNum < t.numDependencies then
    if virtualNum < t.startOfRotation then some virtualNum
    else if 0 < t.numRotatingRegs then
      some ((virtualNum - t.startOfRotation + rrb) % 2 ^ 32 % t.numRotatingRegs
        + t.startOfRotation)
    else none
  else none

theorem getRotatedRegNum_lt {virtualNum rrb num : ℕ}
    (h : t.getRotatedRegNum virtualNum rrb = some num) : num < t.numDependencies := by
  rw [getRotatedRegNum] at h
  split at h
  next hvirtual =>
    split at h
    next => exact Option.some.inj h ▸ hvirtual
    next =>
      split at h
      next hrot =>
        obtain rfl := Option.some.inj h
        have hmod := Nat.mod_lt ((virtualNum - t.startOfRotation + rrb) % 2 ^ 32) hrot
        have hrotates := t.rotates
        simp only [startOfRotation] at hmod ⊢
        omega
      next => cases h
  next => cases h

/-- The number of a register that there is. -/
theorem getRotatedRegNum_isSome {virtualNum : ℕ} (rrb : ℕ) (h : virtualNum < t.numDependencies) :
    (t.getRotatedRegNum virtualNum rrb).isSome := by
  rw [getRotatedRegNum, if_pos h]
  split
  next => rfl
  next hrotated =>
    have hrot : 0 < t.numRotatingRegs := by
      simp only [startOfRotation] at hrotated
      omega
    rw [if_pos hrot]
    rfl

def setEntry (k : ℕ) (prod : Option κ) : DepTable κ :=
  { t with producers := Function.update t.producers k prod }

end DepTable

variable [DecidableEq ι] [DecidableEq κ]

namespace Deps

/-- The body of the loops over older producers: what is older than `prod` becomes the end of its
chain, and `prod` loses its links and its instruction. -/
def detachProducer (d : Deps ι κ ν) (prod : κ) : Option (Deps ι κ ν) :=
  let d := match d.prevProducer prod with
    | some temp =>
      { d with
        nextProducer := Function.update d.nextProducer temp none
        prevProducer := Function.update d.prevProducer prod none }
    | none => d
  { d with instOut := Function.update d.instOut prod none }.removeOutputLinks prod

/-- The loop over older producers, up to the first one where it stops. -/
def detachProducers (stop : Deps ι κ ν → κ → Bool) :
    ℕ → Option κ → Deps ι κ ν → Option (Deps ι κ ν × Option κ)
  | _, none, d => some (d, none)
  | 0, some _, _ => none
  | n + 1, some prod, d =>
    if stop d prod then some (d, some prod)
    else (d.detachProducer prod).bind fun d' =>
      detachProducers stop n (d.prevProducer prod) d'

/-- `prod->GetInst() && prod->GetInst()->IsKilled()`. -/
def killedOut (d : Deps ι κ ν) (prod : κ) : Bool := (d.instOut prod).any d.isKilled

/-- A producer has an instruction that is not killed. -/
def liveOut (d : Deps ι κ ν) (prod : κ) : Bool := (d.instOut prod).any fun i => !d.isKilled i

end Deps

/-- The dependency objects, the table, and the registers of the producers; `mapped` holds the
producers that were mapped, in this order. -/
structure DepState (ι κ ν : Type) where
  deps : Deps ι κ ν
  table : DepTable κ
  physRegNum : κ → Option ℕ
  mapped : List κ

namespace DepState
variable (s : DepState ι κ ν)

/-- `GetProducer`, `BuildOutputDependencyGraph` on what it gives, and `SetProducer`. -/
def mapRegister (prod : κ) (virtualNum rrb : ℕ) : Option (DepState ι κ ν) :=
  (s.table.getRotatedRegNum virtualNum rrb).map fun num =>
    { deps := s.deps.buildOutputDependencyGraph prod (s.table.producers num)
      table := s.table.setEntry num (some prod)
      physRegNum := Function.update s.physRegNum prod (some num)
      mapped := s.mapped ++ [prod] }

/-- `RemoveOutputDependency`; no number is `UINT32_MAX`. -/
def removeOutputDependency (producer : κ) : Option (DepState ι κ ν) :=
  match s.physRegNum producer with
  | none => some s
  | some num =>
    if num < s.table.numDependencies then
      if s.table.producers num = some producer then
        some { s with table := s.table.setEntry num none }
      else some s
    else none

/-- `OUTPUT_DEP_CLASS::CleanUpLinks`. -/
def cleanUpLinks (producer : κ) : Option (DepState ι κ ν) :=
  (s.deps.cleanUpOutputLinks producer).map fun deps => { s with deps }

/-- What a retiring instruction does with a producer, in one of the two orders. -/
def retire (producer : κ) (linksFirst : Bool) : Option (DepState ι κ ν) :=
  if linksFirst then (s.cleanUpLinks producer).bind fun s => s.removeOutputDependency producer
  else (s.removeOutputDependency producer).bind fun s => s.cleanUpLinks producer

/-- `RestoreDependencyState` for one register. -/
def restoreEntry (fuel : ℕ) (s : DepState ι κ ν) (ctr : ℕ) : Option (DepState ι κ ν) :=
  match s.table.producers ctr with
  | none => some s
  | some prod =>
    if s.deps.killedOut prod then
      if s.deps.nextProducer prod = none then
        (Deps.detachProducers Deps.liveOut fuel (some prod) s.deps).map fun (deps, prod) =>
          { s with deps, table := s.table.setEntry ctr prod }
      else none
    else some s

/-- `RestoreDependencyState`. Its inner loop gets fuel. -/
def restoreDependencyState (fuel : ℕ) : Option (DepState ι κ ν) :=
  (List.range s.table.numDependencies).foldlM (restoreEntry fuel) s

/-- `Terminator` for one register. -/
def terminateEntry (fuel : ℕ) (s : DepState ι κ ν) (k : ℕ) : Option (DepState ι κ ν) :=
  match s.table.producers k with
  | none => some { s with table := s.table.setEntry k none }
  | some prod =>
    if s.deps.nextProducer prod = none then
      (Deps.detachProducers (fun _ _ => false) fuel (some prod) s.deps).map fun (deps, _) =>
        { s with deps, table := s.table.setEntry k none }
    else none

/-- `Terminator`. -/
def terminator (fuel : ℕ) : Option (DepState ι κ ν) :=
  (List.range s.table.numDependencies).foldlM (terminateEntry fuel) s

end DepState

end Awb.Dependency
