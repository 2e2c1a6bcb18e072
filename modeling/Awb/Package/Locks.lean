import Mathlib.Tactic

/-! Steps that succeed, fail or die, and the locks that packages have at the lock service. -/

namespace Awb.Package

inductive Outcome
  | ok
  | fail
  | die
  deriving DecidableEq, Repr

/-- How a call ends: 0 and the empty list are both false. -/
inductive End
  | returned (success : Bool)
  | died
  deriving DecidableEq, Repr

namespace Outcome

/-- The second step is made if the first one succeeds. -/
def andThen : Outcome → Outcome → Outcome
  | ok, o => o
  | fail, _ => fail
  | die, _ => die

/-- The first outcome that is no success. -/
def seq (os : List Outcome) : Outcome := os.foldr andThen ok

@[simp] theorem seq_nil : seq [] = ok := rfl

@[simp] theorem seq_cons (o : Outcome) (os : List Outcome) : seq (o :: os) = o.andThen (seq os) :=
  rfl

@[simp] theorem andThen_ok (o : Outcome) : o.andThen ok = o := by
  cases o <;> rfl

theorem andThen_assoc (o o' o'' : Outcome) :
    (o.andThen o').andThen o'' = o.andThen (o'.andThen o'') := by
  cases o <;> rfl

theorem andThen_eq_ok {o o' : Outcome} : o.andThen o' = ok ↔ o = ok ∧ o' = ok := by
  cases o <;> simp [andThen]

theorem seq_eq_ok {os : List Outcome} : seq os = ok ↔ ∀ o ∈ os, o = ok := by
  induction os with
  | nil => simp
  | cons o os ih => rw [seq_cons, andThen_eq_ok, ih, List.forall_mem_cons]

def ofBool : Bool → Outcome
  | true => ok
  | false => fail

@[simp] theorem ofBool_ne_die (b : Bool) : ofBool b ≠ die := by
  cases b <;> simp [ofBool]

@[simp] theorem ofBool_eq_ok {b : Bool} : ofBool b = ok ↔ b = true := by
  cases b <;> simp [ofBool]

@[simp] theorem ofBool_eq_fail {b : Bool} : ofBool b = fail ↔ b = false := by
  cases b <;> simp [ofBool]

end Outcome

/-- Go on after a step, or leave as it ended. -/
def attempt {σ : Type} (o : Outcome) (s : σ) (failed next : End × σ) : End × σ :=
  match o with
  | .ok => next
  | .fail => failed
  | .die => (.died, s)

section
variable {σ : Type} {s : σ} {failed next : End × σ}

@[simp] theorem attempt_ok : attempt .ok s failed next = next := rfl

@[simp] theorem attempt_fail : attempt .fail s failed next = failed := rfl

@[simp] theorem attempt_die : attempt .die s failed next = (.died, s) := rfl

end

/-- A step that does not die, with what is to hold after a failure and after a success. -/
def Outcome.Leads (o : Outcome) (failed next : Prop) : Prop :=
  o ≠ .die ∧ (o = .fail → failed) ∧ (o = .ok → next)

theorem Outcome.leads_congr {o : Outcome} {failed next failed' next' : Prop}
    (hfailed : o = .fail → (failed ↔ failed')) (hnext : o = .ok → (next ↔ next')) :
    o.Leads failed next ↔ o.Leads failed' next' := by
  cases o with
  | ok => simp [Leads, hnext rfl]
  | fail => simp [Leads, hfailed rfl]
  | die => simp [Leads]

/-- What is false of a call that dies. -/
theorem attempt_iff {σ : Type} {Q : End × σ → Prop} {o : Outcome} {s : σ} {failed next : End × σ}
    (hdied : ¬ Q (.died, s)) :
    Q (attempt o s failed next) ↔ o.Leads (Q failed) (Q next) := by
  cases o <;> simp [attempt, Outcome.Leads, hdied]

/-- The answers of the lock service to requests for a lock, as far as they are not decided by who
has it. -/
structure Service where
  lock : List Char → Bool
  unlock : List Char → Bool

/-- The locks that are set, `$nolocks`, and of each package its lock and whether `keep_lock` is
defined. The locks that the caller asked to keep are recorded. -/
structure Locks (P : Type) where
  lockname : P → List Char
  keepLock : P → Bool := fun _ => false
  held : List (List Char) := []
  nolocks : Bool := false
  asked : List (List Char) := []

namespace Locks
variable {P : Type} [DecidableEq P] (service : Service)

def acquireLock (name : List Char) (k : Locks P) : Bool × Locks P :=
  if k.nolocks then (true, k)
  else if service.lock name && !k.held.contains name then
    (true, { k with held := name :: k.held })
  else (false, k)

def releaseLock (name : List Char) (k : Locks P) : Bool × Locks P :=
  if k.nolocks then (true, k)
  else if service.unlock name && k.held.contains name then
    (true, { k with held := k.held.filter (· != name) })
  else (false, k)

/-- `$self->{keep_lock} = 1`. -/
def keep (p : P) (k : Locks P) : Locks P :=
  { k with keepLock := Function.update k.keepLock p true, asked := k.lockname p :: k.asked }

/-- The release of one package in `unlockall`. -/
def unlock (k : Locks P) (p : P) : Locks P :=
  if k.keepLock p then
    { k with
      keepLock := Function.update k.keepLock p false
      asked := k.lockname p :: k.asked }
  else (k.releaseLock service (k.lockname p)).2

def unlockall (ps : List P) (k : Locks P) : Locks P := ps.foldl (unlock service) k

/-- `lockall`, with the packages that are locked so far. -/
def lockall : List P → List P → Locks P → Bool × Locks P
  | [], _, k => (true, k)
  | p :: ps, done, k =>
    match k.acquireLock service (k.lockname p) with
    | (true, k) => lockall ps (done ++ [p]) k
    | (false, k) => (false, k.unlockall service done)

/-- Of the locks that are set, those that were not set before are to be kept. -/
def Released (k₀ k : Locks P) : Prop := ∀ l ∈ k.held, l ∈ k₀.held ∨ l ∈ k.asked

section
variable {service}
variable {k k₀ : Locks P} {p : P} {ps done : List P} {l : List Char}

@[simp] theorem unlock_lockname : (k.unlock service p).lockname = k.lockname := by
  unfold unlock releaseLock
  split_ifs <;> rfl

@[simp] theorem unlock_nolocks : (k.unlock service p).nolocks = k.nolocks := by
  unfold unlock releaseLock
  split_ifs <;> rfl

theorem unlock_keepLock {q : P} (hq : q ≠ p) :
    (k.unlock service p).keepLock q = k.keepLock q := by
  unfold unlock releaseLock
  split_ifs <;> simp [Function.update_of_ne hq]

omit [DecidableEq P] in
theorem mem_held_releaseLock {name : List Char} :
    l ∈ (k.releaseLock service name).2.held ↔
      l ∈ k.held ∧ (l = name → k.nolocks = true ∨ service.unlock name = false) := by
  unfold releaseLock
  split_ifs with hnolocks hgranted
  · simp [hnolocks]
  · rw [Bool.and_eq_true] at hgranted
    simp [hnolocks, hgranted.1]
  · rw [Bool.and_eq_true, not_and, Bool.not_eq_true, List.contains_eq_mem,
      decide_eq_false_iff_not] at hgranted
    cases hunlock : service.unlock name with
    | false => simp
    | true =>
      have hname : l ∈ k.held → l ≠ name := fun hl h => hgranted hunlock (h ▸ hl)
      simp [hnolocks]
      exact hname

theorem mem_held_unlock :
    l ∈ (k.unlock service p).held ↔ l ∈ k.held ∧ (l = k.lockname p →
      k.keepLock p = true ∨ k.nolocks = true ∨ service.unlock (k.lockname p) = false) := by
  unfold unlock
  split_ifs with hkeep
  · simp [hkeep]
  · simp [mem_held_releaseLock, hkeep]

theorem mem_asked_unlock : l ∈ (k.unlock service p).asked ↔
    l ∈ k.asked ∨ k.keepLock p = true ∧ l = k.lockname p := by
  unfold unlock releaseLock
  split_ifs with hkeep <;> simp [hkeep, or_comm]

/-- A lock stays for a package that keeps it, and where the lock service does not release it. -/
def Stays (service : Service) (k : Locks P) (p : P) : Prop :=
  k.keepLock p = true ∨ k.nolocks = true ∨ service.unlock (k.lockname p) = false

theorem mem_held_unlockall (hps : ps.Nodup) : l ∈ (k.unlockall service ps).held ↔
    l ∈ k.held ∧ ∀ p ∈ ps, l = k.lockname p → k.Stays service p := by
  induction ps generalizing k with
  | nil => simp [unlockall]
  | cons p ps ih =>
    rw [List.nodup_cons] at hps
    have hstays : ∀ q ∈ ps, (k.unlock service p).Stays service q ↔ k.Stays service q := by
      intro q hq
      have hne : q ≠ p := fun h => hps.1 (h ▸ hq)
      simp only [Stays, unlock_keepLock hne, unlock_nolocks, unlock_lockname]
    have hih := @ih (k.unlock service p) hps.2
    rw [unlockall, List.foldl_cons, ← unlockall, hih, mem_held_unlock, unlock_lockname,
      List.forall_mem_cons, and_assoc]
    apply and_congr_right
    intro _
    apply and_congr_right
    intro _
    constructor
    · exact fun h q hq hl => (hstays q hq).mp (h q hq hl)
    · exact fun h q hq hl => (hstays q hq).mpr (h q hq hl)

theorem mem_asked_unlockall (hps : ps.Nodup) : l ∈ (k.unlockall service ps).asked ↔
    l ∈ k.asked ∨ ∃ p ∈ ps, k.keepLock p = true ∧ l = k.lockname p := by
  induction ps generalizing k with
  | nil => simp [unlockall]
  | cons p ps ih =>
    rw [List.nodup_cons] at hps
    have hkeep : ∀ q ∈ ps, (k.unlock service p).keepLock q = k.keepLock q := by
      intro q hq
      exact unlock_keepLock fun h => hps.1 (h ▸ hq)
    rw [unlockall, List.foldl_cons, ← unlockall, ih hps.2, mem_asked_unlock, unlock_lockname,
      or_assoc, List.exists_mem_cons_iff]
    apply or_congr_right
    apply or_congr_right
    constructor
    · rintro ⟨q, hq, hkept, hl⟩
      exact ⟨q, hq, hkeep q hq ▸ hkept, hl⟩
    · rintro ⟨q, hq, hkept, hl⟩
      exact ⟨q, hq, (hkeep q hq).symm ▸ hkept, hl⟩

/-- The packages whose locks were taken, none of which was set before. -/
structure Taken (k₀ : Locks P) (ps : List P) (k : Locks P) : Prop where
  lockname : k.lockname = k₀.lockname
  nolocks : k.nolocks = k₀.nolocks
  held : ∀ l, l ∈ k.held ↔ l ∈ k₀.held ∨ k₀.nolocks = false ∧ l ∈ ps.map k₀.lockname
  fresh : k₀.nolocks = false → ∀ p ∈ ps, k₀.lockname p ∉ k₀.held
  distinct : k₀.nolocks = false → (ps.map k₀.lockname).Nodup

/-- What `unlockall` leaves is to be kept, unless the lock service refuses. -/
theorem Taken.released_unlockall (h : Taken k₀ ps k)
    (hasked : ∀ l ∈ k.asked, ∃ p ∈ ps, k.keepLock p = true ∧ l = k.lockname p) (hps : ps.Nodup) :
    Released k₀ (k.unlockall service ps) ↔ k₀.nolocks = true ∨
      ∀ p ∈ ps, k.keepLock p = true ∨ service.unlock (k₀.lockname p) = true := by
  have hkept : ∀ l, l ∈ (k.unlockall service ps).asked ↔
      ∃ p ∈ ps, k.keepLock p = true ∧ l = k.lockname p := by
    intro l
    rw [mem_asked_unlockall hps]
    exact or_iff_right_of_imp (hasked l)
  cases hnolocks : k₀.nolocks with
  | true =>
    simp only [true_or, iff_true]
    intro l hl
    rw [mem_held_unlockall hps, h.held, hnolocks] at hl
    left
    simpa using hl.1
  | false =>
    simp only [Bool.false_eq_true, false_or]
    constructor
    · intro hreleased p hp
      by_contra hnot
      rw [not_or, Bool.not_eq_true, Bool.not_eq_true] at hnot
      have honly : ∀ q ∈ ps, k₀.lockname p = k₀.lockname q → q = p := by
        intro q hq hname
        exact List.inj_on_of_nodup_map (h.distinct hnolocks) hq hp hname.symm
      have hheld : k₀.lockname p ∈ (k.unlockall service ps).held := by
        rw [mem_held_unlockall hps, h.held, h.lockname]
        constructor
        · exact Or.inr ⟨hnolocks, List.mem_map_of_mem hp⟩
        · intro q hq hname
          rw [honly q hq hname, Stays, h.lockname]
          exact Or.inr (Or.inr hnot.2)
      rcases hreleased _ hheld with hold | hask
      · exact h.fresh hnolocks p hp hold
      · obtain ⟨q, hq, hkeep, hname⟩ := (hkept _).mp hask
        rw [h.lockname] at hname
        rw [honly q hq hname, hnot.1] at hkeep
        cases hkeep
    · intro hall l hl
      rw [mem_held_unlockall hps, h.held, h.lockname] at hl
      rcases hl with ⟨hold | ⟨-, hmem⟩, hstays⟩
      · exact Or.inl hold
      · obtain ⟨p, hp, rfl⟩ := List.mem_map.mp hmem
        right
        rw [hkept]
        refine ⟨p, hp, ?_, by rw [h.lockname]⟩
        rcases hstays p hp rfl with hkeep | hnone | hrefused
        · exact hkeep
        · rw [h.nolocks, hnolocks] at hnone
          cases hnone
        · rcases hall p hp with hkeep | hgranted
          · exact hkeep
          · rw [h.lockname, hgranted] at hrefused
            cases hrefused

/-- The lock of a package can be taken after those of others. -/
def lockable (service : Service) (k : Locks P) (done : List P) (p : P) : Bool :=
  k.nolocks || (service.lock (k.lockname p) && !k.held.contains (k.lockname p) &&
    !(done.map k.lockname).contains (k.lockname p))

/-- The packages up to the first whose lock cannot be taken. -/
def lockables (service : Service) (k : Locks P) : List P → List P → List P
  | _, [] => []
  | done, p :: ps =>
    if k.lockable service done p then p :: lockables service k (done ++ [p]) ps else []

/-- The locks of these packages are taken. -/
def take (k : Locks P) (ps : List P) : Locks P :=
  if k.nolocks then k else { k with held := (ps.map k.lockname).reverse ++ k.held }

omit [DecidableEq P] in
theorem take_nil : k.take [] = k := by
  unfold take
  split_ifs <;> rfl

omit [DecidableEq P] in
theorem acquireLock_take : (k.take done).acquireLock service (k.lockname p) =
    if k.lockable service done p then (true, k.take (done ++ [p])) else (false, k.take done) := by
  cases hnolocks : k.nolocks with
  | true => simp [acquireLock, take, lockable, hnolocks]
  | false =>
    simp only [acquireLock, take, lockable, hnolocks, Bool.false_eq_true, if_false, Bool.false_or,
      List.contains_eq_mem, List.mem_append, List.mem_reverse, List.map_append, List.map_cons,
      List.map_nil, List.reverse_append, List.reverse_cons, List.reverse_nil, List.nil_append,
      List.cons_append]
    by_cases hdone : k.lockname p ∈ done.map k.lockname <;>
      by_cases hheld : k.lockname p ∈ k.held <;> simp [hdone, hheld]

omit [DecidableEq P] in
theorem take_lockname : (k.take done).lockname = k.lockname := by
  unfold take
  split_ifs <;> rfl

/-- All or none. -/
theorem lockall_take : lockall service ps done (k.take done) =
    if lockables service k done ps = ps then (true, k.take (done ++ ps))
    else (false, (k.take (done ++ lockables service k done ps)).unlockall service
      (done ++ lockables service k done ps)) := by
  induction ps generalizing done with
  | nil => simp [lockall, lockables]
  | cons p ps ih =>
    rw [lockall, take_lockname, acquireLock_take]
    by_cases hp : k.lockable service done p = true
    · simp only [if_pos hp, ih, lockables, List.cons.injEq, true_and, List.append_assoc,
        List.singleton_append]
    · simp [if_neg hp, lockables]

theorem lockall_eq : lockall service ps [] k =
    if lockables service k [] ps = ps then (true, k.take ps)
    else (false, (k.take (lockables service k [] ps)).unlockall service
      (lockables service k [] ps)) := by
  have h : lockall service ps [] (k.take []) = _ := lockall_take
  rwa [take_nil, List.nil_append, List.nil_append] at h

omit [DecidableEq P] in
/-- Their locks are free, and no two have one lock. -/
theorem lockables_free (hnolocks : k.nolocks = false) :
    (∀ p ∈ lockables service k done ps,
      k.lockname p ∉ k.held ∧ k.lockname p ∉ done.map k.lockname) ∧
    ((lockables service k done ps).map k.lockname).Nodup := by
  induction ps generalizing done with
  | nil => simp [lockables]
  | cons p ps ih =>
    rw [lockables]
    split_ifs with hp
    · obtain ⟨hfree, hnodup⟩ := @ih (done ++ [p])
      simp only [lockable, hnolocks, Bool.false_or, Bool.and_eq_true, Bool.not_eq_true',
        List.contains_eq_mem, decide_eq_false_iff_not] at hp
      constructor
      · intro q hq
        rcases List.mem_cons.mp hq with rfl | hq
        · exact ⟨hp.1.2, hp.2⟩
        · have hq' := hfree q hq
          rw [List.map_append, List.mem_append, not_or] at hq'
          exact ⟨hq'.1, hq'.2.1⟩
      · rw [List.map_cons, List.nodup_cons]
        refine ⟨?_, hnodup⟩
        intro hmem
        obtain ⟨q, hq, hname⟩ := List.mem_map.mp hmem
        apply (hfree q hq).2
        rw [hname]
        simp
    · simp

omit [DecidableEq P] in
theorem taken_lockables : Taken k (lockables service k [] ps)
    (k.take (lockables service k [] ps)) where
  lockname := take_lockname
  nolocks := by
    unfold take
    split_ifs <;> rfl
  held := by
    intro l
    unfold take
    split_ifs with hnolocks
    · simp [hnolocks]
    · simp [hnolocks, or_comm]
  fresh := fun hnolocks p hp => ((lockables_free hnolocks).1 p hp).1
  distinct := fun hnolocks => (lockables_free hnolocks).2

omit [DecidableEq P] in
theorem lockables_prefix : lockables service k done ps <+: ps := by
  induction ps generalizing done with
  | nil => exact List.prefix_refl []
  | cons p ps ih =>
    rw [lockables]
    split_ifs
    · exact List.prefix_cons_inj p |>.mpr ih
    · exact List.nil_prefix

section
variable {name : List Char}
omit [DecidableEq P]

/-- A single lock can be taken. -/
def free (service : Service) (k : Locks P) (name : List Char) : Bool :=
  k.nolocks || (service.lock name && !k.held.contains name)

/-- A single lock is taken. -/
def hold (k : Locks P) (name : List Char) : Locks P :=
  if k.nolocks then k else { k with held := name :: k.held }

/-- Locks are not used, or the lock service grants the release. -/
def granted (service : Service) (k : Locks P) (name : List Char) : Bool :=
  k.nolocks || service.unlock name

/-- The lock is not set yet, or locks are not used. -/
def Fresh (k : Locks P) (name : List Char) : Prop := k.nolocks = true ∨ name ∉ k.held

theorem fresh_of_free (h : k.free service name = true) : k.Fresh name := by
  unfold free at h
  rw [Bool.or_eq_true, Bool.and_eq_true, Bool.not_eq_true', List.contains_eq_mem,
    decide_eq_false_iff_not] at h
  exact h.imp_right And.right

theorem acquireLock_eq : k.acquireLock service name =
    if k.free service name then (true, k.hold name) else (false, k) := by
  unfold acquireLock free hold
  cases k.nolocks <;> rfl

theorem releaseLock_hold (hfresh : k.Fresh name) :
    (k.hold name).releaseLock service name =
      if k.granted service name then (true, k) else (false, k.hold name) := by
  unfold releaseLock hold granted
  cases hnolocks : k.nolocks with
  | true => simp [hnolocks]
  | false =>
    have hnot : name ∉ k.held := hfresh.resolve_left (by simp [hnolocks])
    have hheld : k.held.filter (· != name) = k.held := by
      rw [List.filter_eq_self]
      intro l hl
      have hne : l ≠ name := fun h => hnot (h ▸ hl)
      simpa using hne
    have hk : { k with held := k.held, nolocks := false } = k := by rw [← hnolocks]
    cases service.unlock name with
    | false => simp
    | true => simpa [hheld] using hk

theorem released_self : Released k k := fun _ hl => Or.inl hl

/-- A lock that is still set is to be kept, or it was never taken. -/
theorem released_hold {k' : Locks P} (hfresh : k.Fresh name)
    (hheld : k'.held = (k.hold name).held) :
    Released k k' ↔ k.nolocks = true ∨ name ∈ k'.asked := by
  unfold hold at hheld
  unfold Released
  rw [hheld]
  cases hnolocks : k.nolocks with
  | true =>
    simp only [if_true, true_or, iff_true]
    exact fun _ hl => Or.inl hl
  | false =>
    have hnot : name ∉ k.held := hfresh.resolve_left (by simp [hnolocks])
    simp only [Bool.false_eq_true, if_false, false_or, List.forall_mem_cons]
    constructor
    · exact fun h => h.1.resolve_left hnot
    · exact fun h => ⟨Or.inr h, fun _ hl => Or.inl hl⟩

end

end

end Locks

end Awb.Package
