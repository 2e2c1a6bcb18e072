import Awb.Classic.Accounting
import Awb.Lib.Multiples

/-! The alignment of periodic items, in natural numbers. The action time is the next multiple of
the period above the count the source starts from, as long as its sum does not overflow. -/

namespace Awb.Classic
open Schedule

/-- The sum the action time of a periodic item is computed from, before it wraps. -/
def dividend (item : WorkItem) (current : Counters) : Nat :=
  match item.trigger with
  | .cyclePeriod => current.cycle.toNat + 1 + item.period.toNat
  | .instPeriod => current.inst.toNat + 1 + item.period.toNat
  | .macroInstPeriod => current.macroInst.toNat + 1 + item.period.toNat
  | .nanosecondPeriod => current.nanosecond.toNat + item.period.toNat
  | _ => 0

/-- The count whose next multiple is taken. -/
def alignedFrom (k : CounterKind) (current : Counters) : Nat :=
  if k = .nanosecond then (current.get k).toNat else (current.get k).toNat + 1

theorem le_alignedFrom (k : CounterKind) (current : Counters) :
    (current.get k).toNat ≤ alignedFrom k current := by
  unfold alignedFrom
  split_ifs <;> omega

theorem dividend_eq {item : WorkItem} {k : CounterKind} (hp : item.trigger.isPeriod = true)
    (hk : item.trigger.counter = some k) (current : Counters) :
    dividend item current = alignedFrom k current + item.period.toNat := by
  unfold dividend alignedFrom
  cases ht : item.trigger <;> rw [ht] at hp hk <;>
    simp only [ActionTrigger.isPeriod, Bool.false_eq_true, ActionTrigger.counter,
      Option.some.injEq] at hp hk <;> subst hk <;> rfl

/-- Every periodic trigger aligns in the same way, from its own sum. -/
theorem alignPeriod_eq {item : WorkItem} {k : CounterKind} (hp : item.trigger.isPeriod = true)
    (hk : item.trigger.counter = some k) (current : Counters) : alignPeriod item current =
      align item (.ofNat (dividend item current)) (current.get k) := by
  unfold alignPeriod dividend
  cases ht : item.trigger <;> rw [ht] at hp hk <;>
    simp only [ActionTrigger.isPeriod, Bool.false_eq_true, ActionTrigger.counter,
      Option.some.injEq] at hp hk <;> subst hk <;>
    simp only [Counters.get, UInt64.ofNat_add, UInt64.ofNat_toNat, UInt64.ofNat_one]

theorem toNat_align {n p : Nat} (hn : n < 2 ^ 64) (hp : p < 2 ^ 64) :
    (UInt64.ofNat n / UInt64.ofNat p * UInt64.ofNat p).toNat = n / p * p := by
  have h : n / p * p < 2 ^ 64 := (Nat.div_mul_le_self n p).trans_lt hn
  simp only [UInt64.toNat_mul, UInt64.toNat_div, UInt64.toNat_ofNat']
  rw [Nat.mod_eq_of_lt hn, Nat.mod_eq_of_lt hp, Nat.mod_eq_of_lt h]

/-- An aligned item is due at the next multiple above the count it was aligned from. -/
theorem alignPeriod_time {item x : WorkItem} {k : CounterKind} {current : Counters}
    (hp : item.trigger.isPeriod = true) (hk : item.trigger.counter = some k)
    (hov : dividend item current < 2 ^ 64) (h : alignPeriod item current = .ok x) :
    0 < item.period.toNat ∧
      x.time = Multiples.next item.period.toNat (alignedFrom k current) := by
  rw [alignPeriod_eq hp hk] at h
  obtain ⟨hp0, -, rfl⟩ := align_ok h
  have hpos : 0 < item.period.toNat := Nat.pos_of_ne_zero fun h0 => hp0 (UInt64.toNat_inj.mp h0)
  refine ⟨hpos, ?_⟩
  have ht := toNat_align hov item.period.toNat_lt
  rw [UInt64.ofNat_toNat] at ht
  rw [WorkItem.time, ht, dividend_eq hp hk, Nat.add_div_right _ hpos, Multiples.next]

/-- Without overflow a rescheduled item lies in the future. -/
theorem alignPeriod_lt_time {item x : WorkItem} {k : CounterKind} {current : Counters}
    (hp : item.trigger.isPeriod = true) (hk : item.trigger.counter = some k)
    (hov : dividend item current < 2 ^ 64) (h : alignPeriod item current = .ok x) :
    (current.get k).toNat < x.time := by
  obtain ⟨hpos, ht⟩ := alignPeriod_time hp hk hov h
  have hlt := Multiples.lt_next hpos (alignedFrom k current)
  have hle := le_alignedFrom k current
  omega

/-- Without overflow and with a period the alignment succeeds. -/
theorem alignPeriod_succeeds {item : WorkItem} {k : CounterKind} {current : Counters}
    (hp : item.trigger.isPeriod = true) (hk : item.trigger.counter = some k)
    (hpos : 0 < item.period.toNat) (hov : dividend item current < 2 ^ 64) :
    ∃ x, alignPeriod item current = .ok x := by
  have hp0 : item.period ≠ 0 := fun h => by simp [h] at hpos
  have ht := toNat_align hov item.period.toNat_lt
  rw [UInt64.ofNat_toNat] at ht
  rw [dividend_eq hp hk, Nat.add_div_right _ hpos] at ht
  have hne : .ofNat (dividend item current) / item.period * item.period ≠ current.get k := by
    intro h
    have hlt := Multiples.lt_next hpos (alignedFrom k current)
    have hle := le_alignedFrom k current
    rw [← h, dividend_eq hp hk, ht] at hle
    rw [Multiples.next] at hlt
    omega
  exact ⟨_, by rw [alignPeriod_eq hp hk, align, if_neg hp0, if_neg hne]⟩

/-- What `ReadyEvent` takes is due. -/
theorem time_le_of_isReady {item : WorkItem} {k : CounterKind} {current : UInt64}
    (hz : item.NowZero) (h : isReady k item current = true) : item.time ≤ current.toNat := by
  have key : ∀ a b : UInt64, a = b → a.toNat ≤ b.toNat := fun a b h => h ▸ le_rfl
  cases k <;>
    simp only [isReady, Bool.or_eq_true, Bool.and_eq_true, decide_eq_true_eq] at h
  case cycle | nanosecond =>
    rcases h with h | h
    · simp [WorkItem.time, hz h]
    · exact key _ _ h.2
  all_goals exact UInt64.le_iff_toNat_le.mp h.2

end Awb.Classic
