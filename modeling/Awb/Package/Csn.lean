import Mathlib.Data.List.DropRight
import Mathlib.Tactic

/-! The serial numbers of packages: texts `CSN-<name>-<number>`. -/

namespace Awb.Package

/-- The digits at the end of a text, as `\d+$` finds them. -/
def numeral (t : List Char) : List Char := t.rtakeWhile Char.isDigit

/-- What stands before them. -/
def stem (t : List Char) : List Char := t.rdropWhile Char.isDigit

def isNumber (t : List Char) : Bool := !t.isEmpty && t.all Char.isDigit

/-- `/^CSN-.*-$/`. -/
def isStem (t : List Char) : Bool :=
  "CSN-".toList.isPrefixOf t && 5 ≤ t.length && t.getLast? == some '-' && !t.contains '\n'

/-- `/^CSN-.*-\d+$/`. -/
def isCsn (t : List Char) : Bool := isStem (stem t) && !(numeral t).isEmpty

/-- A bare number is given the name of its package. -/
def upgrade (name t : List Char) : List Char :=
  if isNumber t then "CSN-".toList ++ name ++ '-' :: t else t

/-- What `csn()` returns of the value that the package has. -/
def readCsn (name value : List Char) : Option (List Char) :=
  if isCsn (upgrade name value) then some (upgrade name value) else none

def serial (t : List Char) : Nat := Nat.ofDigitChars 10 (numeral t) 0

/-- `$1+1`, as a numeral. From 2^64 on the sum is a floating-point number, and what is printed is no
numeral. -/
def successor (n : Nat) : Option (List Char) :=
  if n + 1 < 2 ^ 64 then some (Nat.toDigits 10 (n + 1)) else none

theorem stem_append_numeral (t : List Char) : stem t ++ numeral t = t :=
  List.rdropWhile_append_rtakeWhile

theorem all_numeral (t : List Char) : ∀ c ∈ numeral t, c.isDigit = true := by
  intro c hc
  exact List.mem_rtakeWhile_imp hc

section
variable {t digits : List Char}

theorem getLast_of_isStem (h : isStem t = true) : t.getLast? = some '-' := by
  simp only [isStem, Bool.and_eq_true, beq_iff_eq] at h
  exact h.1.2

/-- Digits that are put behind a stem are its number. -/
theorem numeral_append (ht : isStem t = true) (hd : ∀ c ∈ digits, c.isDigit = true) :
    numeral (t ++ digits) = digits ∧ stem (t ++ digits) = t := by
  obtain ⟨front, rfl⟩ := List.getLast?_eq_some_iff.mp (getLast_of_isStem ht)
  have hdash : Char.isDigit '-' = false := rfl
  constructor
  · rw [numeral, List.rtakeWhile, List.reverse_append,
      List.takeWhile_append_of_pos fun c hc => hd c (List.mem_reverse.mp hc)]
    simp [hdash]
  · rw [stem, List.rdropWhile, List.reverse_append,
      List.dropWhile_append_of_pos fun c hc => hd c (List.mem_reverse.mp hc)]
    simp [hdash]

theorem isCsn_append (ht : isStem t = true) (hd : ∀ c ∈ digits, c.isDigit = true)
    (hne : digits ≠ []) : isCsn (t ++ digits) = true := by
  obtain ⟨hnumeral, hstem⟩ := numeral_append ht hd
  rw [isCsn, hstem, hnumeral, ht]
  simpa using hne

theorem isStem_of_isCsn (h : isCsn t = true) : isStem (stem t) = true := by
  simp only [isCsn, Bool.and_eq_true] at h
  exact h.1

/-- A text with a stem is no bare number. -/
theorem upgrade_of_isCsn {name : List Char} (h : isCsn t = true) : upgrade name t = t := by
  apply if_neg
  intro hnumber
  simp only [isNumber, Bool.and_eq_true, List.all_eq_true] at hnumber
  have hdash : '-' ∈ t := by
    rw [← stem_append_numeral t]
    exact List.mem_append_left _ (List.mem_of_getLast? (getLast_of_isStem (isStem_of_isCsn h)))
  cases hnumber.2 '-' hdash

theorem readCsn_of_isCsn {name : List Char} (h : isCsn t = true) : readCsn name t = some t := by
  rw [readCsn, upgrade_of_isCsn h, if_pos h]

theorem readCsn_eq_some {name value csn : List Char} (h : readCsn name value = some csn) :
    isCsn csn = true := by
  unfold readCsn at h
  split at h
  · rename_i hcsn
    rwa [← Option.some.inj h]
  · cases h

end

theorem all_toDigits (n : Nat) : ∀ c ∈ Nat.toDigits 10 n, c.isDigit = true := fun _ hc =>
  Nat.isDigit_of_mem_toDigits (by decide) (by decide) hc

/-- Another number behind the stem. -/
theorem isCsn_renumber {t : List Char} (h : isCsn t = true) (n : Nat) :
    isCsn (stem t ++ Nat.toDigits 10 n) = true :=
  isCsn_append (isStem_of_isCsn h) (all_toDigits n) Nat.toDigits_ne_nil

theorem serial_renumber {t : List Char} (h : isCsn t = true) (n : Nat) :
    serial (stem t ++ Nat.toDigits 10 n) = n := by
  obtain ⟨hnumeral, -⟩ := numeral_append (isStem_of_isCsn h) (all_toDigits n)
  rw [serial, hnumeral, Nat.ofDigitChars_ten_toDigits]

theorem stem_renumber {t : List Char} (h : isCsn t = true) (n : Nat) :
    stem (stem t ++ Nat.toDigits 10 n) = stem t :=
  (numeral_append (isStem_of_isCsn h) (all_toDigits n)).2

end Awb.Package
