import Awb.Systems.InstBuf

/-! The order in which a TPU commits its instructions, and the pc that it goes back to when it
aborts them. An instruction that the feeder does not read for is killed but stays in the buffer, so
a commit that follows commits it. -/

namespace Awb.Systems
variable {α : Type}

/-! ### What should happen -/

namespace TpuEvent

/-- What was fetched since the last commit or abort. -/
def pending (pend : List (Fetched α)) : TpuEvent α → List (Fetched α)
  | fetch f => pend ++ [f]
  | commit _ | abort _ _ => []

def committed : TpuEvent α → List (Inst α)
  | commit insts => insts.map Prod.fst
  | fetch _ | abort _ _ => []

def killed : TpuEvent α → List (Inst α)
  | fetch f => if f.killed then [f.inst] else []
  | abort inst _ => inst.toList
  | commit _ => []

/-- A commit is of what is pending and was not killed, and an abort goes back to the first of what
is pending. -/
def InOrder (pend : List (Fetched α)) : TpuEvent α → Prop
  | fetch _ => True
  | commit insts => insts.map Prod.fst = (pend.filter (!·.killed)).map Fetched.inst
  | abort inst pc => ∃ f, pend.head? = some f ∧ inst = some f.inst ∧ pc = f.pc

end TpuEvent

def pendingAfter (pend : List (Fetched α)) (tr : List (TpuEvent α)) : List (Fetched α) :=
  tr.foldl TpuEvent.pending pend

def EventsInOrder : List (Fetched α) → List (TpuEvent α) → Prop
  | _, [] => True
  | pend, e :: tr => e.InOrder pend ∧ EventsInOrder (e.pending pend) tr

/-- The events of a run, and the TPU at its end, are as they should be. -/
structure CommitsInOrder (maxInstBufSz : ℕ) (tr : List (TpuEvent α)) (t : TpuInsts α) : Prop where
  fifo : t.myInstBuf.IsFifo maxInstBufSz ((pendingAfter [] tr).map Fetched.inst)
  numEntries : t.myInstBuf.myNumEntries =
    maxInstBufSz.count fun i => (t.myInstBuf.myInst i).isSome
  inOrder : EventsInOrder [] tr
  resumes : ∀ inst pc, tr.getLast? = some (.abort inst pc) → t.myPc = pc
  once : (tr.flatMap TpuEvent.committed).Nodup
  notKilled : ∀ inst ∈ tr.flatMap TpuEvent.killed, inst ∉ tr.flatMap TpuEvent.committed

/-- Calls for which there is room in the buffer, with so many instructions pending, and that abort
only if there are some. -/
def CallsAllowed (maxInstBufSz : ℕ) : ℕ → List (TpuCall α) → Prop
  | _, [] => True
  | pending, .fetchAndExecute _ _ :: calls =>
    pending < maxInstBufSz ∧ CallsAllowed maxInstBufSz (pending + 1) calls
  | _, .commit :: calls => CallsAllowed maxInstBufSz 0 calls
  | pending, .abort :: calls => 0 < pending ∧ CallsAllowed maxInstBufSz 0 calls

/-- After an instruction was killed, an abort comes before the next commit. -/
def AbortsKilled (capable : Bool) : Bool → List (TpuCall α) → Prop
  | _, [] => True
  | killed, .fetchAndExecute info doRead :: calls =>
    AbortsKilled capable (killed || info.isMemRead && capable && !doRead) calls
  | killed, .commit :: calls => killed = false ∧ AbortsKilled capable false calls
  | _, .abort :: calls => AbortsKilled capable false calls

/-! ### What the calls do -/

/-- The events of calls, by what is pending and the number of the next instruction: a commit is of
everything that is pending. -/
inductive CallEvents : List (Fetched α) → ℕ → List (TpuEvent α) → Prop
  | nil {pend : List (Fetched α)} {k : ℕ} : CallEvents pend k []
  | fetch {pend : List (Fetched α)} {k : ℕ} {tr : List (TpuEvent α)} {f : Fetched α} :
    f.inst.serial = k → CallEvents (pend ++ [f]) (k + 1) tr → CallEvents pend k (.fetch f :: tr)
  | commit {pend : List (Fetched α)} {k : ℕ} {tr : List (TpuEvent α)}
      {insts : List (Inst α × Bool)} :
    insts.map Prod.fst = pend.map Fetched.inst → CallEvents [] k tr →
      CallEvents pend k (.commit insts :: tr)
  | abort {pend : List (Fetched α)} {k : ℕ} {tr : List (TpuEvent α)} {f : Fetched α} :
    pend.head? = some f → CallEvents [] k tr →
      CallEvents pend k (.abort (some f.inst) f.pc :: tr)

/-- Between calls the buffer holds what is pending, and the pc of the first of it is known. -/
structure TpuInsts.Pending (maxInstBufSz : ℕ) (t : TpuInsts α) (pend : List (Fetched α)) :
    Prop where
  fifo : t.myInstBuf.IsFifo maxInstBufSz (pend.map Fetched.inst)
  first : t.myFirstUncommittedPc = (pend.head?.map Fetched.pc).getD t.myPc

namespace TpuInsts
variable {maxInstBufSz : ℕ} {capable : Bool} {t : TpuInsts α} {pend : List (Fetched α)}

theorem pending_start (pc : α) : (start pc).Pending maxInstBufSz [] where
  fifo := InstBuf.isFifo_new
  first := rfl

namespace Pending

/-- An instruction goes behind those that are pending, also if it is killed. -/
theorem fetchAndExecute (h : t.Pending maxInstBufSz pend) (hroom : pend.length < maxInstBufSz)
    (info : InstInfo α) (doRead : Bool) :
    ∃ f t', t.fetchAndExecute maxInstBufSz capable info doRead = some (.fetch f, t') ∧
      f.inst.serial = t.fetched ∧ f.killed = (info.isMemRead && capable && !doRead) ∧
      t'.fetched = t.fetched + 1 ∧ t'.Pending maxInstBufSz (pend ++ [f]) := by
  have hlength : (pend.map Fetched.inst).length < maxInstBufSz := by rwa [List.length_map]
  obtain ⟨buf, hinsert, hbuf⟩ := h.fifo.insert hlength { info with serial := t.fetched }
  -- the first uncommitted pc is that of this fetch if nothing else is pending
  have hfirst : ∀ f pc, f.pc = t.myPc →
      t.myFirstUncommittedPc = ((pend ++ [f]).head?.map Fetched.pc).getD pc := by
    intro f pc hf
    rw [h.first]
    cases pend with
    | nil => exact hf.symm
    | cons g pend => rfl
  rw [TpuInsts.fetchAndExecute, hinsert]
  cases hkill : info.isMemRead && capable && !doRead with
  | true =>
    refine ⟨⟨t.myPc, { info with serial := t.fetched }, true⟩,
      { t with myInstBuf := buf, fetched := t.fetched + 1 }, rfl, rfl, rfl, rfl, ?_, ?_⟩
    · rwa [List.map_append]
    · exact hfirst _ _ rfl
  | false =>
    refine ⟨⟨t.myPc, { info with serial := t.fetched }, false⟩,
      { t with myInstBuf := buf, fetched := t.fetched + 1, myPc := nextPc info },
      rfl, rfl, rfl, rfl, ?_, ?_⟩
    · rwa [List.map_append]
    · exact hfirst _ _ rfl

/-- The loop of `commit` empties the buffer from its head. -/
theorem commitInsts {fuel : ℕ} {b : InstBuf (Inst α)} {insts : List (Inst α)}
    (h : b.IsFifo maxInstBufSz insts) (hfuel : insts.length < fuel) :
    ∃ committed b', TpuInsts.commitInsts maxInstBufSz capable fuel b = some (committed, b') ∧
      committed.map Prod.fst = insts ∧ b'.IsFifo maxInstBufSz [] := by
  induction insts generalizing fuel b with
  | nil =>
    obtain ⟨fuel, rfl⟩ := Nat.exists_eq_succ_of_ne_zero (Nat.ne_of_gt hfuel)
    refine ⟨[], b, ?_, rfl, h⟩
    rw [TpuInsts.commitInsts, h.removeHead_nil]
  | cons inst insts ih =>
    obtain ⟨fuel, rfl⟩ := Nat.exists_eq_succ_of_ne_zero (Nat.ne_of_gt (Nat.zero_lt_of_lt hfuel))
    obtain ⟨b', hremove, hrest⟩ := h.removeHead_cons
    obtain ⟨committed, b'', hloop, hcommitted, hempty⟩ := ih hrest (Nat.lt_of_succ_lt_succ hfuel)
    refine ⟨(inst, inst.isMemWrite && capable) :: committed, b'', ?_, ?_, hempty⟩
    · rw [TpuInsts.commitInsts, hremove]
      simp only [hloop, Option.map_some]
    · rw [List.map_cons, hcommitted]

theorem commit (h : t.Pending maxInstBufSz pend) :
    ∃ insts t', t.commit maxInstBufSz capable = some (.commit insts, t') ∧
      insts.map Prod.fst = pend.map Fetched.inst ∧ t'.fetched = t.fetched ∧
      t'.Pending maxInstBufSz [] := by
  obtain ⟨insts, buf, hloop, hinsts, hempty⟩ :=
    @commitInsts α maxInstBufSz capable _ _ _ h.fifo (Nat.lt_succ_of_le h.fifo.holds.fits)
  refine ⟨insts, { t with myInstBuf := buf, myFirstUncommittedPc := t.myPc }, ?_, hinsts, rfl,
    hempty, rfl⟩
  rw [TpuInsts.commit, hloop]
  rfl

theorem abort (h : t.Pending maxInstBufSz pend) (hsome : 0 < pend.length) :
    ∃ f t', t.abort maxInstBufSz = some (.abort (some f.inst) f.pc, t') ∧
      pend.head? = some f ∧ t'.myPc = f.pc ∧ t'.fetched = t.fetched ∧
      t'.Pending maxInstBufSz [] := by
  obtain ⟨f, pend, rfl⟩ := List.exists_cons_of_length_pos hsome
  have hremove := h.fifo.removeHeadAndAbort
  have hfirst : t.myFirstUncommittedPc = f.pc := h.first
  refine ⟨f, { t with myInstBuf := {}, myPc := f.pc }, ?_, rfl, rfl, rfl, InstBuf.isFifo_new,
    hfirst⟩
  rw [TpuInsts.abort, hremove, hfirst]
  rfl

end Pending

end TpuInsts

/-! ### Runs -/

variable {maxInstBufSz : ℕ} {capable : Bool} {t : TpuInsts α} {pend : List (Fetched α)} {k : ℕ}
  {tr : List (TpuEvent α)} {calls : List (TpuCall α)}

/-- All of what is pending was not killed, as a filter and as a flag. -/
theorem filter_eq_iff :
    pend.map Fetched.inst = (pend.filter (!·.killed)).map Fetched.inst ↔
      pend.any Fetched.killed = false := by
  constructor
  · intro h
    have hlength := congrArg List.length h
    rw [List.length_map, List.length_map] at hlength
    have hall := List.length_filter_eq_length_iff.mp hlength.symm
    rw [List.any_eq_false]
    intro f hf
    simpa using hall f hf
  · intro h
    rw [List.filter_eq_self.mpr]
    intro f hf
    simpa using List.any_eq_false.mp h f hf

/-- The last of some events, if it is an abort, tells where fetching goes on. -/
theorem resumes_cons {e : TpuEvent α} {t' : TpuInsts α}
    (he : ∀ inst pc, e = .abort inst pc → t.myPc = pc) (hnil : tr = [] → t' = t)
    (htr : ∀ inst pc, tr.getLast? = some (.abort inst pc) → t'.myPc = pc) (inst : Option (Inst α))
    (pc : α) (hlast : (e :: tr).getLast? = some (.abort inst pc)) : t'.myPc = pc := by
  rcases List.eq_nil_or_concat tr with rfl | ⟨front, last, rfl⟩
  · rw [hnil rfl]
    exact he inst pc (Option.some.inj hlast)
  · refine htr inst pc ?_
    rw [← hlast, List.getLast?_cons, List.concat_eq_append, List.getLast?_concat]
    rfl

/-- Calls that are allowed do not fail, and their events are in order exactly if what was killed is
aborted. -/
theorem TpuInsts.Pending.run (h : t.Pending maxInstBufSz pend)
    (hallowed : CallsAllowed maxInstBufSz pend.length calls) :
    ∃ tr t', Lts.follow (TpuInsts.call maxInstBufSz capable) t calls = some (tr, t') ∧
      CallEvents pend t.fetched tr ∧ t'.Pending maxInstBufSz (pendingAfter pend tr) ∧
      (tr = [] → t' = t) ∧ (∀ inst pc, tr.getLast? = some (.abort inst pc) → t'.myPc = pc) ∧
      (EventsInOrder pend tr ↔ AbortsKilled capable (pend.any Fetched.killed) calls) := by
  induction calls generalizing t pend with
  | nil =>
    refine ⟨[], t, rfl, .nil, h, fun _ => rfl, fun _ _ hlast => (by cases hlast), ?_⟩
    simp only [EventsInOrder, AbortsKilled]
  | cons call calls ih =>
    have hfollow : ∀ {e t₁ tr t'}, t.call maxInstBufSz capable call = some (e, t₁) →
        Lts.follow (TpuInsts.call maxInstBufSz capable) t₁ calls = some (tr, t') →
        Lts.follow (TpuInsts.call maxInstBufSz capable) t (call :: calls) = some (e :: tr, t') := by
      intro e t₁ tr t' hcall hrest
      rw [Lts.follow, hcall, Option.bind_some, hrest, Option.map_some]
    cases call with
    | fetchAndExecute info doRead =>
      obtain ⟨hroom, hallowed⟩ := hallowed
      obtain ⟨f, t₁, hcall, hserial, hkilled, hfetched, h₁⟩ :=
        @TpuInsts.Pending.fetchAndExecute α maxInstBufSz capable t pend h hroom info doRead
      obtain ⟨tr, t', hrest, hevents, h', hnil, hresumes, hiff⟩ :=
        ih h₁ (by rwa [List.length_append, List.length_singleton])
      refine ⟨.fetch f :: tr, t', hfollow hcall hrest, .fetch hserial (hfetched ▸ hevents), h',
        fun hcons => (by cases hcons),
        resumes_cons (fun _ _ habort => by cases habort) hnil hresumes, ?_⟩
      rw [List.any_append, List.any_cons, List.any_nil, Bool.or_false, hkilled] at hiff
      rw [EventsInOrder, AbortsKilled, ← hiff, TpuEvent.InOrder, true_and]
      rfl
    | commit =>
      obtain ⟨insts, t₁, hcall, hinsts, hfetched, h₁⟩ :=
        @TpuInsts.Pending.commit α maxInstBufSz capable t pend h
      obtain ⟨tr, t', hrest, hevents, h', hnil, hresumes, hiff⟩ := ih h₁ hallowed
      refine ⟨.commit insts :: tr, t', hfollow hcall hrest, .commit hinsts (hfetched ▸ hevents),
        h', fun hcons => (by cases hcons),
        resumes_cons (fun _ _ habort => by cases habort) hnil hresumes, ?_⟩
      rw [EventsInOrder, AbortsKilled, TpuEvent.InOrder, hinsts, filter_eq_iff]
      exact and_congr_right fun _ => hiff
    | abort =>
      obtain ⟨hsome, hallowed⟩ := hallowed
      obtain ⟨f, t₁, hcall, hhead, hpc, hfetched, h₁⟩ := h.abort hsome
      obtain ⟨tr, t', hrest, hevents, h', hnil, hresumes, hiff⟩ := ih h₁ hallowed
      refine ⟨.abort (some f.inst) f.pc :: tr, t', hfollow hcall hrest,
        .abort hhead (hfetched ▸ hevents), h', fun hcons => (by cases hcons),
        resumes_cons (fun _ pc habort => ?_) hnil hresumes, ?_⟩
      · cases habort
        exact hpc
      · rw [EventsInOrder, AbortsKilled, TpuEvent.InOrder]
        exact ⟨fun horder => hiff.mp horder.2, fun haborts => ⟨⟨f, hhead, rfl, rfl⟩,
          hiff.mpr haborts⟩⟩

/-- What is pending is in the order of its numbers, before the next one. -/
structure Numbered (pend : List (Fetched α)) (k : ℕ) : Prop where
  sorted : pend.Pairwise fun f g => f.inst.serial < g.inst.serial
  below : ∀ f ∈ pend, f.inst.serial < k

theorem Numbered.fetch (h : Numbered pend k) {f : Fetched α} (hf : f.inst.serial = k) :
    Numbered (pend ++ [f]) (k + 1) where
  sorted := by
    rw [List.pairwise_append]
    refine ⟨h.sorted, List.pairwise_singleton .., fun g hg f' hf' => ?_⟩
    rw [List.mem_singleton.mp hf', hf]
    exact h.below g hg
  below g hg := by
    rcases List.mem_append.mp hg with hg | hg
    · exact Nat.lt_succ_of_lt (h.below g hg)
    · rw [List.mem_singleton.mp hg, hf]
      exact Nat.lt_succ_self k

theorem Numbered.nil (k : ℕ) : Numbered ([] : List (Fetched α)) k where
  sorted := .nil
  below := fun _ hf => (by cases hf)

/-- The instructions of an event. -/
def TpuEvent.insts : TpuEvent α → List (Inst α)
  | fetch f => [f.inst]
  | commit insts => insts.map Prod.fst
  | abort inst _ => inst.toList

theorem TpuEvent.committed_subset (e : TpuEvent α) : e.committed ⊆ e.insts := by
  cases e with
  | fetch f => exact List.nil_subset _
  | commit insts => exact List.Subset.refl _
  | abort inst pc => exact List.nil_subset _

theorem TpuEvent.killed_subset (e : TpuEvent α) : e.killed ⊆ e.insts := by
  cases e with
  | fetch f =>
    rw [killed]
    split
    · exact List.Subset.refl _
    · exact List.nil_subset _
  | commit insts => exact List.nil_subset _
  | abort inst pc => exact List.Subset.refl _

/-- What was aborted or committed comes before what is fetched later. -/
theorem lt_of_nil {inst later : Inst α} (h : later ∈ ([] : List (Fetched α)).map Fetched.inst ∨
    k ≤ later.serial) (hinst : inst.serial < k) : inst ≠ later := by
  rintro rfl
  rcases h with hnil | hle
  · cases hnil
  · omega

namespace CallEvents

/-- The instructions of the events were pending, or are fetched later. -/
theorem of_mem_insts (h : CallEvents pend k tr) {e : TpuEvent α} (he : e ∈ tr) {inst : Inst α}
    (hinst : inst ∈ e.insts) : inst ∈ pend.map Fetched.inst ∨ k ≤ inst.serial := by
  induction h with
  | nil => cases he
  | @fetch pend k tr f hserial hrest ih =>
    rcases List.mem_cons.mp he with rfl | he
    · rw [List.mem_singleton.mp hinst, hserial]
      exact .inr le_rfl
    · rcases ih he with hmem | hle
      · rw [List.map_append, List.mem_append] at hmem
        refine hmem.imp_right fun hf => ?_
        rw [List.mem_singleton.mp hf, hserial]
      · exact .inr (Nat.le_of_succ_le hle)
  | @commit pend k tr insts hinsts hrest ih =>
    rcases List.mem_cons.mp he with rfl | he
    · exact .inl (hinsts ▸ hinst)
    · exact .inr ((ih he).resolve_left fun hnil => by cases hnil)
  | @abort pend k tr f hhead hrest ih =>
    rcases List.mem_cons.mp he with rfl | he
    · obtain rfl : inst = f.inst := List.mem_singleton.mp hinst
      exact .inl (List.mem_map_of_mem (List.mem_of_mem_head? hhead))
    · exact .inr ((ih he).resolve_left fun hnil => by cases hnil)

theorem of_mem_committed (h : CallEvents pend k tr) {inst : Inst α}
    (hinst : inst ∈ tr.flatMap TpuEvent.committed) :
    inst ∈ pend.map Fetched.inst ∨ k ≤ inst.serial := by
  obtain ⟨e, he, hinst⟩ := List.mem_flatMap.mp hinst
  exact h.of_mem_insts he (e.committed_subset hinst)

theorem of_mem_killed (h : CallEvents pend k tr) {inst : Inst α}
    (hinst : inst ∈ tr.flatMap TpuEvent.killed) :
    inst ∈ pend.map Fetched.inst ∨ k ≤ inst.serial := by
  obtain ⟨e, he, hinst⟩ := List.mem_flatMap.mp hinst
  exact h.of_mem_insts he (e.killed_subset hinst)

/-- No instruction is committed twice. -/
theorem nodup_committed (h : CallEvents pend k tr) (hpend : Numbered pend k) :
    (tr.flatMap TpuEvent.committed).Nodup := by
  induction h with
  | nil => exact .nil
  | fetch hserial hrest ih => exact ih (hpend.fetch hserial)
  | @commit pend k tr insts hinsts hrest ih =>
    rw [List.flatMap_cons, List.nodup_append]
    refine ⟨?_, ih (.nil k), fun inst hinst later hlater => ?_⟩
    · rw [TpuEvent.committed, hinsts]
      exact (hpend.sorted.map Fetched.inst fun f g hlt heq => hlt.ne (congrArg Inst.serial heq))
    · rw [TpuEvent.committed, hinsts] at hinst
      obtain ⟨f, hf, rfl⟩ := List.mem_map.mp hinst
      exact lt_of_nil (hrest.of_mem_committed hlater) (hpend.below f hf)
  | abort hhead hrest ih => exact ih (.nil _)

/-- When the events are in order, nothing is committed that is or was killed. -/
theorem notKilled (h : CallEvents pend k tr) (hpend : Numbered pend k)
    (horder : EventsInOrder pend tr) :
    (∀ f ∈ pend, f.killed = true → f.inst ∉ tr.flatMap TpuEvent.committed) ∧
      ∀ inst ∈ tr.flatMap TpuEvent.killed, inst ∉ tr.flatMap TpuEvent.committed := by
  induction h with
  | nil => exact ⟨fun _ _ _ hmem => (by cases hmem), fun _ hmem => (by cases hmem)⟩
  | @fetch pend k tr f hserial hrest ih =>
    obtain ⟨hflagged, hkilled⟩ := ih (hpend.fetch hserial) horder.2
    refine ⟨fun g hg => hflagged g (List.mem_append_left _ hg), fun inst hinst => ?_⟩
    rw [List.flatMap_cons, List.mem_append] at hinst
    rcases hinst with hinst | hinst
    · rw [TpuEvent.killed] at hinst
      split at hinst
      next hf =>
        rw [List.mem_singleton.mp hinst]
        exact hflagged f (List.mem_append_right _ (List.mem_singleton_self f)) hf
      next => cases hinst
    · exact hkilled inst hinst
  | @commit pend k tr insts hinsts hrest ih =>
    obtain ⟨hcommit, horder⟩ := horder
    obtain ⟨-, hkilled⟩ := ih (.nil k) horder
    have hflags : pend.any Fetched.killed = false := filter_eq_iff.mp (hinsts ▸ hcommit)
    refine ⟨fun f hf hflag => ?_, fun inst hinst hmem => ?_⟩
    · exact absurd hflag (List.any_eq_false.mp hflags f hf)
    · rw [List.flatMap_cons, List.mem_append] at hmem
      rcases hmem with hmem | hmem
      · rw [TpuEvent.committed, hinsts] at hmem
        obtain ⟨f, hf, rfl⟩ := List.mem_map.mp hmem
        exact lt_of_nil (hrest.of_mem_killed hinst) (hpend.below f hf) rfl
      · exact hkilled inst hinst hmem
  | @abort pend k tr f hhead hrest ih =>
    obtain ⟨-, hkilled⟩ := ih (.nil k) horder.2
    -- what is committed later was not pending
    have hlater : ∀ g ∈ pend, g.inst ∉ tr.flatMap TpuEvent.committed := fun g hg hmem =>
      lt_of_nil (hrest.of_mem_committed hmem) (hpend.below g hg) rfl
    refine ⟨fun g hg _ => hlater g hg, fun inst hinst => ?_⟩
    rw [List.flatMap_cons, List.mem_append] at hinst
    rcases hinst with hinst | hinst
    · rw [List.mem_singleton.mp hinst]
      exact hlater f (List.mem_of_mem_head? hhead)
    · exact hkilled inst hinst

end CallEvents

/-- In every sequence of calls that is allowed, from a thread's start: instructions are committed
in order, each once, and none that was killed, exactly if an instruction that fetching killed is
aborted before the next commit. -/
theorem commitsInOrder_iff (maxInstBufSz : ℕ) (capable : Bool) (pc : α) (calls : List (TpuCall α))
    (hallowed : CallsAllowed maxInstBufSz 0 calls) :
    ∃ tr t, Lts.follow (TpuInsts.call maxInstBufSz capable) (.start pc) calls = some (tr, t) ∧
      (CommitsInOrder maxInstBufSz tr t ↔ AbortsKilled capable false calls) := by
  obtain ⟨tr, t, hfollow, hevents, hpending, -, hresumes, hiff⟩ :=
    @TpuInsts.Pending.run α maxInstBufSz capable _ _ calls (TpuInsts.pending_start pc) hallowed
  refine ⟨tr, t, hfollow, fun h => hiff.mp h.inOrder, fun haborts => ?_⟩
  have horder := hiff.mpr haborts
  exact ⟨hpending.fifo, hpending.fifo.count, horder, hresumes, hevents.nodup_committed (.nil _),
    (hevents.notKilled (.nil _) horder).2⟩

/-- A load at the given pc, which falls through to the next one. -/
def load (pc : ℕ) : InstInfo ℕ where
  isMemRead := true
  isMemWrite := false
  isNonSequentialPC := false
  hadFault := false
  isControlOp := false
  actualTarget := pc
  nextVirtualPC := pc + 1

/-- Two loads are committed, and a third one is killed and aborted. -/
theorem commitsInOrder_loads :
    ∃ tr t, Lts.follow (TpuInsts.call 2 true) (.start 0)
        [.fetchAndExecute (load 0) true, .fetchAndExecute (load 1) true, .commit,
          .fetchAndExecute (load 2) false, .abort] = some (tr, t) ∧
      CommitsInOrder 2 tr t := by
  obtain ⟨tr, t, hfollow, hiff⟩ := commitsInOrder_iff 2 true 0
    [.fetchAndExecute (load 0) true, .fetchAndExecute (load 1) true, .commit,
      .fetchAndExecute (load 2) false, .abort] (by simp [CallsAllowed])
  exact ⟨tr, t, hfollow, hiff.mpr (by simp [AbortsKilled, load])⟩

/-- A load that the feeder does not read for is committed all the same. -/
theorem not_commitsInOrder :
    ¬ ∀ tr t, Lts.follow (TpuInsts.call 1024 true) (.start 0)
        [.fetchAndExecute (load 0) false, .commit] = some (tr, t) →
      CommitsInOrder 1024 tr t := by
  intro h
  have hcommit := (h _ _ rfl).inOrder.2.1
  exact absurd (congrArg List.length hcommit) (by decide)

end Awb.Systems
