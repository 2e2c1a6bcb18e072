import Mathlib.Data.List.TakeWhile
import Awb.Lib.Folds
import Awb.Workbench.Simple

/-! What the procedures of the workbench put on the work list: the numbers and the descriptors
they print are read back by `PmSchedule`. -/

namespace Awb.Workbench
open Awb.Classic

/-- A decimal number as `sscanf` reads it: one that does not fit becomes the greatest. -/
def scanned (n : Nat) : UInt64 := if 2 ^ 64 ≤ n then .ofNat (2 ^ 64 - 1) else .ofNat n

theorem toNat_scanned (n : Nat) : (scanned n).toNat = min n (2 ^ 64 - 1) := by
  unfold scanned
  split_ifs with h
  · simp only [UInt64.toNat_ofNat']
    omega
  · rw [UInt64.toNat_ofNat', Nat.mod_eq_of_lt (by omega)]
    omega

theorem scanUnsigned_digits {cs : List Char} (hne : cs ≠ []) (h : ∀ c ∈ cs, c.isDigit = true) :
    scanUnsigned cs = some (scanned (Nat.ofDigitChars 10 cs 0)) := by
  obtain ⟨c, rest, rfl⟩ := List.exists_cons_of_ne_nil hne
  have hc : c.isDigit = true := h c List.mem_cons_self
  -- a digit is neither a space nor a sign
  have hspace : isSpace c = false := by
    have hd : ∀ d : Char, d.isDigit = false → c ≠ d := by
      rintro d hd rfl
      exact absurd hc (by simp [hd])
    simp [isSpace, hd]
  have hminus : c ≠ '-' := by
    rintro rfl
    exact absurd hc (by decide)
  have hplus : c ≠ '+' := by
    rintro rfl
    exact absurd hc (by decide)
  have hdrop : (c :: rest).dropWhile isSpace = c :: rest :=
    List.dropWhile_cons_of_neg (by simp [hspace])
  have htake : (c :: rest).takeWhile Char.isDigit = c :: rest := List.takeWhile_eq_self_iff.mpr h
  rw [Nat.ofDigitChars_eq_foldl, scanned, scanUnsigned]
  simp only [hdrop]
  split
  · rename_i heq
    exact absurd (List.cons.inj heq).1 hminus
  · rename_i heq
    exact absurd (List.cons.inj heq).1 hplus
  · simp only [htake, List.cons_ne_nil, if_false, List.head?_cons, Option.some.injEq, hminus]
    split_ifs <;> rfl

theorem scanUnsigned_toString (n : Nat) : scanUnsigned (toString n).toList = some (scanned n) := by
  have htoString : (toString n).toList = Nat.toDigits 10 n := Nat.toList_repr
  have hdigits : ∀ c ∈ Nat.toDigits 10 n, c.isDigit = true := fun c hc =>
    Nat.isDigit_of_mem_toDigits (by decide) (by decide) hc
  rw [htoString, scanUnsigned_digits Nat.toDigits_ne_nil hdigits, Nat.ofDigitChars_ten_toDigits]

def RunType.later : RunType → Later
  | cycle => .cycleOnce
  | inst => .instOnce
  | nanosecond => .nanosecondOnce

theorem decodeActionTime_stopAction (type : RunType) (n : Nat) :
    decodeActionTime type.stopAction (some (toString n)) =
      some (.later type.later (scanned n)) := by
  have hlater : type.stopAction ≠ "now" ∧ timeActions.lookup type.stopAction = some type.later := by
    cases type <;> exact ⟨by decide, rfl⟩
  simp only [decodeActionTime, if_neg hlater.1, scanUnsigned_toString, hlater.2, Option.map_some]

namespace Host

theorem pmThreadDescToPtr_desc (host : Host) {thread : Thread} (h : thread ≠ 0) :
    pmThreadDescToPtr host.toEnvironment (host.desc thread) = some thread := by
  have hstarts : "THREAD__".toList.isPrefixOf (host.desc thread).toList = true := by
    simp [desc, String.toList_append]
  have hdrop : (host.desc thread).toList.drop 8 = (host.printPointer thread).toList := by
    simp [desc, String.toList_append]
  rw [pmThreadDescToPtr, if_pos hstarts, hdrop, host.scan_print]
  split
  · rename_i h0
    exact absurd (Option.some.inj h0) h
  · rfl

end Host

namespace Bench
variable {host : Host} {b b' : Bench}

def startCommand : Command := ActionTime.now.command .start

def exitCommand : Command := ActionTime.now.command .exit

theorem pmSchedule_eq {args : List String} {c : Command}
    (h : pmScheduleCmd host.toEnvironment b.loop.toController ("PmSchedule" :: args) =
      (.ok, b.loop.toController.command c)) : b.pmSchedule host args = .ok (b.command c) := by
  rw [pmSchedule, h]
  rfl

theorem pmSchedule_start : b.pmSchedule host ["start"] = .ok (b.command startCommand) :=
  pmSchedule_eq rfl

theorem pmSchedule_exit : b.pmSchedule host ["exit", "now"] = .ok (b.command exitCommand) :=
  pmSchedule_eq rfl

theorem pmSchedule_stop (type : RunType) (n : Nat) :
    b.pmSchedule host ["stop", type.stopAction, toString n] =
      .ok (b.command (type.later.command .stop (scanned n))) := by
  apply pmSchedule_eq
  have hstop : pmScheduleCmd host.toEnvironment b.loop.toController
      ["PmSchedule", "stop", type.stopAction, toString n] =
    actionTimeCmd b.loop.toController .stop type.stopAction type.stopAction (some (toString n)) :=
      rfl
  rw [hstop, actionTimeCmd, decodeActionTime_stopAction]
  rfl

/-- The options that move a thread, with what they make the model do. -/
def threadKind (option : String) : Thread → WorkKind :=
  if option = "schedthread" then .thdSched else .thdUnsched

theorem pmSchedule_thread {option desc trigger : String} {time : Nat} {thread : Thread}
    {a : ActionTime} (hoption : option = "schedthread" ∨ option = "unschedthread")
    (hdesc : pmThreadDescToPtr host.toEnvironment desc = some thread)
    (htime : decodeActionTime trigger (some (toString time)) = some a) :
    b.pmSchedule host [option, desc, trigger, toString time] =
      .ok (b.command (a.command (threadKind option thread))) := by
  apply pmSchedule_eq
  rcases hoption with rfl | rfl
  · have hcmd : pmScheduleCmd host.toEnvironment b.loop.toController
        ["PmSchedule", "schedthread", desc, trigger, toString time] =
      threadCmd host.toEnvironment b.loop.toController
        "Usage: PmSchedule schedthread ?thread? ?action? ?time?" .thdSched
        [desc, trigger, toString time] := rfl
    rw [hcmd]
    simp only [threadCmd, hdesc, actionTimeCmd, htime]
    rfl
  · have hcmd : pmScheduleCmd host.toEnvironment b.loop.toController
        ["PmSchedule", "unschedthread", desc, trigger, toString time] =
      threadCmd host.toEnvironment b.loop.toController
        "Usage: PmSchedule unschedthread ?thread? ?action? ?time?" .thdUnsched
        [desc, trigger, toString time] := rfl
    rw [hcmd]
    simp only [threadCmd, hdesc, actionTimeCmd, htime]
    rfl

/-- The item that skips some thread, or all with the null pointer. -/
def skipKind (host : Host) (thread : Option Thread) (inst markerID : String) : WorkKind :=
  .thdSkip thread (host.atoiGeneralUnsigned inst) ((host.atoiGeneral markerID).bmod (2 ^ 32))

theorem pmSchedule_skip {desc inst markerID trigger : String} {time : Nat}
    {thread : Option Thread} {a : ActionTime}
    (hdesc : Awb.Classic.skipThread host.toEnvironment desc = some thread)
    (htime : decodeActionTime trigger (some (toString time)) = some a) :
    b.pmSchedule host ["skipthread", desc, inst, markerID, trigger, toString time] =
      .ok (b.command (a.command (skipKind host thread inst markerID))) := by
  apply pmSchedule_eq
  have hcmd : pmScheduleCmd host.toEnvironment b.loop.toController
      ["PmSchedule", "skipthread", desc, inst, markerID, trigger, toString time] =
    skipThreadCmd host.toEnvironment b.loop.toController
      [desc, inst, markerID, trigger, toString time] := rfl
  rw [hcmd]
  simp only [skipThreadCmd, hdesc, actionTimeCmd, htime]
  rfl

end Bench

/-- A host whose pointers are decimal numbers, and whose arrays keep the order of insertion. -/
def plainHost : Host where
  atoiGeneral s := match s.toList with
    | '-' :: cs => -Nat.ofDigitChars 10 cs 0
    | cs => Nat.ofDigitChars 10 cs 0
  atoiGeneralUnsigned s := .ofNat (Nat.ofDigitChars 10 s.toList 0)
  scanPointer cs := some (Nat.ofDigitChars 10 cs 0)
  findTraceOpt _ := 0
  setParam _ _ := false
  builtWithTraceFlags := false
  runWithEventsOn := false
  configFile _ _ := none
  threadUid thread := thread
  printPointer thread := toString thread
  scan_print thread := by
    have htoString : (toString thread).toList = Nat.toDigits 10 thread := Nat.toList_repr
    rw [htoString, Nat.ofDigitChars_ten_toDigits]
  arrayNames names := names
  arrayNames_perm _ := .refl _

end Awb.Workbench
