import Mathlib.Logic.Relation
import Mathlib.Tactic

/-! A program that can be interrupted once, between any two of its steps; a handler then takes its
place. What holds at every moment until its end and what holds at the end are found by going
through the program. -/

namespace Interrupts
variable {σ : Type*}

/-- What is left of a program. A call succeeds or fails, and has an effect in either case. -/
inductive Script (σ : Type*)
  | exit
  | act (f : σ → σ) (next : Script σ)
  | call (good : σ → σ) (next : Script σ) (bad : σ → σ) (otherwise : Script σ)
  | test (b : σ → Bool) (yes no : Script σ)

/-- What is done first when the program is interrupted, and the program that takes its place. -/
structure Handler (σ : Type*) where
  entry : σ → σ
  body : Script σ

structure Config (σ : Type*) where
  script : Script σ
  state : σ
  interrupted : Bool

inductive Step (h : Handler σ) : Config σ → Config σ → Prop
  | act {f : σ → σ} {next : Script σ} {s : σ} {i : Bool} :
      Step h ⟨.act f next, s, i⟩ ⟨next, f s, i⟩
  | succeeds {good bad : σ → σ} {next otherwise : Script σ} {s : σ} {i : Bool} :
      Step h ⟨.call good next bad otherwise, s, i⟩ ⟨next, good s, i⟩
  | fails {good bad : σ → σ} {next otherwise : Script σ} {s : σ} {i : Bool} :
      Step h ⟨.call good next bad otherwise, s, i⟩ ⟨otherwise, bad s, i⟩
  | test {b : σ → Bool} {yes no : Script σ} {s : σ} {i : Bool} :
      Step h ⟨.test b yes no, s, i⟩ ⟨if b s then yes else no, s, i⟩
  | interrupt {script : Script σ} {s : σ} (hscript : script ≠ .exit) :
      Step h ⟨script, s, false⟩ ⟨h.body, h.entry s, true⟩

/-- The program is at its end, or comes to it, in any number of steps. -/
def Reaches (h : Handler σ) : Config σ → Config σ → Prop := Relation.ReflTransGen (Step h)

/-- Of a program that is not interrupted: `P` holds until its end and `Q` at the end. -/
def Always (P Q : σ → Prop) : Script σ → σ → Prop
  | .exit, s => Q s
  | .act f next, s => P s ∧ Always P Q next (f s)
  | .call good next bad otherwise, s =>
    P s ∧ Always P Q next (good s) ∧ Always P Q otherwise (bad s)
  | .test b yes no, s => P s ∧ if b s then Always P Q yes s else Always P Q no s

variable {h : Handler σ} {P Q Q' : σ → Prop} {script yes no : Script σ} {s : σ} {b : σ → Bool}
  {c c' : Config σ}

theorem always_test (hs : P s) (hyes : b s = true → Always P Q yes s)
    (hno : b s = false → Always P Q no s) : Always P Q (.test b yes no) s := by
  refine ⟨hs, ?_⟩
  split
  next hb => exact hyes hb
  next hb => exact hno (Bool.eq_false_of_not_eq_true hb)

theorem Always.moment (hscript : Always P Q script s) (hexit : script ≠ .exit) : P s := by
  cases script with
  | exit => exact absurd rfl hexit
  | act f next => exact hscript.1
  | call good next bad otherwise => exact hscript.1
  | test b yes no => exact hscript.1

/-- At this moment the handler can take over. -/
def Interruptible (h : Handler σ) (P Q' : σ → Prop) (s : σ) : Prop :=
  P s ∧ Always P Q' h.body (h.entry s)

/-- What is left keeps `P`, also if it is interrupted, and ends with `Q`, or with `Q'` if it has
been interrupted. -/
def Keeps (h : Handler σ) (P Q Q' : σ → Prop) (c : Config σ) : Prop :=
  if c.interrupted then Always P Q' c.script c.state
  else Always (Interruptible h P Q') Q c.script c.state

/-- One step of a program. -/
theorem Keeps.step (hc : Keeps h P Q Q' c) (hstep : Step h c c') : Keeps h P Q Q' c' := by
  cases hstep with
  | @act f next s i =>
    cases i with
    | false => exact (show Always _ _ (.act f next) s from hc).2
    | true => exact (show Always _ _ (.act f next) s from hc).2
  | @succeeds good bad next otherwise s i =>
    cases i with
    | false => exact (show Always _ _ (.call good next bad otherwise) s from hc).2.1
    | true => exact (show Always _ _ (.call good next bad otherwise) s from hc).2.1
  | @fails good bad next otherwise s i =>
    cases i with
    | false => exact (show Always _ _ (.call good next bad otherwise) s from hc).2.2
    | true => exact (show Always _ _ (.call good next bad otherwise) s from hc).2.2
  | @test b yes no s i =>
    have hbranch : ∀ P' Q'' : σ → Prop, Always P' Q'' (.test b yes no) s →
        Always P' Q'' (if b s then yes else no) s := by
      rintro P' Q'' ⟨-, htest⟩
      split at htest
      next hb => rwa [if_pos hb]
      next hb => rwa [if_neg hb]
    cases i with
    | false => exact hbranch _ _ hc
    | true => exact hbranch _ _ hc
  | interrupt hscript =>
    exact ((show Always (Interruptible h P Q') Q _ _ from hc).moment hscript).2

/-- A whole run of it. -/
theorem Reaches.keeps (hrun : Reaches h c c') (hc : Keeps h P Q Q' c) : Keeps h P Q Q' c' := by
  induction hrun with
  | refl => exact hc
  | tail _ hstep ih => exact ih.step hstep

theorem Keeps.moment (hc : Keeps h P Q Q' c) (hscript : c.script ≠ .exit) : P c.state := by
  unfold Keeps at hc
  split at hc
  next => exact hc.moment hscript
  next => exact (hc.moment hscript).1

theorem Keeps.atEnd (hc : Keeps h P Q Q' c) (hscript : c.script = .exit) :
    if c.interrupted then Q' c.state else Q c.state := by
  unfold Keeps at hc
  rwa [hscript] at hc

end Interrupts
