import Awb.Lib.Masks

/-! The statistics of each instruction of a program: `PERINST_CACHE_CLASS` keeps them in pages,
which it finds by the upper bits of an address, with the last page in front. -/

namespace Awb.InstProfile

abbrev Addr := BitVec 64

/-- `PERINST_COUNTER`. -/
inductive Counter
  | dynInst
  | issue
  | ctrlMp
  | dcMiss
  | mcMiss
  deriving DecidableEq, Repr

/-- `PERINST_STATS_CLASS`. -/
abbrev Stats := Counter → BitVec 64

/-- `operator+=`, which counts the instructions itself. -/
def Stats.accumulate (s right : Stats) : Stats
  | .dynInst => s .dynInst + 1
  | c => s c + right c

structure Entry where
  des : List Char
  addr : Addr
  commInst : Stats
  noncommInst : Stats

/-- The constructor copies at most 99 characters of the name. -/
def Entry.new (name : List Char) (addr : Addr) : Entry :=
  ⟨name.take 99, addr, fun _ => 0, fun _ => 0⟩

def Entry.updateInst (e : Entry) (ifs : Stats) (commit : Bool) : Entry :=
  if commit then { e with commInst := e.commInst.accumulate ifs }
  else { e with noncommInst := e.noncommInst.accumulate ifs }

structure Page where
  pageAddr : Addr
  page : Addr → Option Entry

/-- A call of `UpdateStats`. -/
structure Update where
  addr : Addr
  name : List Char
  ifs : Stats
  commit : Bool

/-- The parameters of the module. -/
structure Config where
  log2EntriesPerPage : ℕ
  maxNumInsts : ℕ

/-- The pages are numbered, and a number stands for the pointer to its page. -/
structure Cache where
  pages : List Page
  statCache : Addr → Option ℕ
  lastPage : Option ℕ
  numInst : BitVec 32

def Cache.empty : Cache := ⟨[], fun _ => none, none, 0⟩

namespace Config

/-- `ENTRIES_PER_PAGE`, an `int`, where it is compared with an offset. -/
def entriesPerPage (g : Config) : Addr := (1#32 <<< g.log2EntriesPerPage).signExtend 64

/-- `~((1 << LOG2_ENTRIES_PER_PAGE) - 1)`, an `int`, where it masks an address. -/
def pageMask (g : Config) : Addr := (~~~(1#32 <<< g.log2EntriesPerPage - 1#32)).signExtend 64

def pageKey (g : Config) (addr : Addr) : Addr := addr >>> g.log2EntriesPerPage

def offset (g : Config) (addr : Addr) : Addr := addr - (addr &&& g.pageMask)

end Config

variable (g : Config)

namespace Page

def store (p : Page) (offset : Addr) (e : Entry) : Page :=
  { p with page := Function.update p.page offset (some e) }

/-- `PERINST_PAGE_CLASS::UpdateInst`. An assertion that fails ends the program. -/
def updateInst (p : Page) (numInst : BitVec 32) (u : Update) : Option (Page × BitVec 32) :=
  let offset := u.addr - p.pageAddr
  if offset < g.entriesPerPage then
    let update (e : Entry) (numInst : BitVec 32) :=
      if e.addr = u.addr then some (p.store offset (e.updateInst u.ifs u.commit), numInst) else none
    match p.page offset with
    | none =>
      if g.maxNumInsts < numInst.toNat then none
      else update (Entry.new u.name u.addr) (numInst + 1)
    | some e => update e numInst
  else none

end Page

namespace Cache

def addPage (c : Cache) (addr : Addr) : Cache where
  pages := c.pages ++ [⟨addr &&& g.pageMask, fun _ => none⟩]
  statCache := Function.update c.statCache (g.pageKey addr) (some c.pages.length)
  lastPage := some c.pages.length
  numInst := c.numInst

/-- The page of an address, by the last page, by the map, or as a new page. -/
def findPage (c : Cache) (addr : Addr) : Cache × ℕ :=
  match c.lastPage.filter fun p =>
      (c.pages[p]?.map Page.pageAddr) = some (addr &&& g.pageMask) with
  | some p => (c, p)
  | none =>
    match c.statCache (g.pageKey addr) with
    | some p => ({ c with lastPage := some p }, p)
    | none => (c.addPage g addr, c.pages.length)

def setPage (c : Cache) (p : ℕ) (page : Page) (numInst : BitVec 32) : Cache :=
  { c with pages := c.pages.set p page, numInst := numInst }

/-- `UpdateStats`. -/
def updateStats (c : Cache) (u : Update) : Option Cache := do
  let (c, p) := c.findPage g u.addr
  let page ← c.pages[p]?
  let (page, numInst) ← page.updateInst g c.numInst u
  some (c.setPage p page numInst)

/-- The entry at an offset of the page that the map has for a key. -/
def entryAt (c : Cache) (key offset : Addr) : Option Entry :=
  (c.statCache key).bind fun p => c.pages[p]?.bind fun page => page.page offset

end Cache

/-! ### What the statistics should be -/

/-- What a counter should be after some updates. -/
def total (us : List Update) : Counter → ℕ
  | .dynInst => us.length
  | c => (us.map fun u => (u.ifs c).toNat).sum

/-! ### Pages of addresses -/

section
variable {g : Config} (hg : g.log2EntriesPerPage < 31)

theorem toNat_one_shift {k : ℕ} (hk : k < 31) : (1#32 <<< k).toNat = 2 ^ k := by
  have hlt : 2 ^ k < 2 ^ 32 := Nat.pow_lt_pow_right (by decide) (by omega)
  rw [BitVec.toNat_shiftLeft, Nat.shiftLeft_eq]
  simpa using hlt

include hg

theorem toNat_entriesPerPage : g.entriesPerPage.toNat = 2 ^ g.log2EntriesPerPage := by
  have hle : 2 ^ g.log2EntriesPerPage < 2 ^ 31 := Nat.pow_lt_pow_right (by decide) hg
  have hmsb : (1#32 <<< g.log2EntriesPerPage).msb = false := by
    rw [BitVec.msb_eq_false_iff_two_mul_lt, toNat_one_shift hg]
    omega
  rw [Config.entriesPerPage, BitVec.signExtend_eq_setWidth_of_msb_false hmsb,
    BitVec.toNat_setWidth, toNat_one_shift hg]
  exact Nat.mod_eq_of_lt (by omega)

theorem clearsBelow_pageMask : ClearsBelow g.log2EntriesPerPage g.pageMask :=
  (ClearsBelow.not_sub_one (toNat_one_shift hg)).signExtend (by omega) 64

theorem pageMask_eq_iff (a b : Addr) :
    a &&& g.pageMask = b &&& g.pageMask ↔ g.pageKey a = g.pageKey b :=
  (clearsBelow_pageMask hg).and_eq_and_iff_shift a b

theorem pageKey_pageMask (a : Addr) : g.pageKey (a &&& g.pageMask) = g.pageKey a := by
  refine (pageMask_eq_iff hg _ _).mp ?_
  rw [BitVec.and_assoc, BitVec.and_self]

theorem toNat_pageMask (a : Addr) : (a &&& g.pageMask).toNat =
    2 ^ g.log2EntriesPerPage * (a.toNat / 2 ^ g.log2EntriesPerPage) :=
  (clearsBelow_pageMask hg).toNat_and a

/-- An address lies in the page that the mask gives. -/
theorem offset_lt (a : Addr) : g.offset a < g.entriesPerPage := by
  rw [Config.offset, BitVec.lt_def, toNat_entriesPerPage hg]
  exact (clearsBelow_pageMask hg).toNat_sub_and_lt a

/-- An address is given by the key of its page and its offset. -/
theorem eq_of_pageKey {a b : Addr} (hkey : g.pageKey a = g.pageKey b)
    (hoffset : g.offset a = g.offset b) : a = b := by
  rw [Config.offset, Config.offset, (pageMask_eq_iff hg a b).mpr hkey] at hoffset
  exact (BitVec.sub_left_inj _).mp hoffset

end

/-! ### One call -/

section
variable {g : Config} {c : Cache}

/-- What the cache keeps between two calls. -/
structure Cache.Valid (g : Config) (c : Cache) : Prop where
  lastPage : ∀ p, c.lastPage = some p → ∃ key, c.statCache key = some p
  page : ∀ key p, c.statCache key = some p → ∃ page, c.pages[p]? = some page ∧
    page.pageAddr &&& g.pageMask = page.pageAddr ∧ g.pageKey page.pageAddr = key
  entry : ∀ key offset e, c.entryAt key offset = some e →
    key = g.pageKey e.addr ∧ offset = g.offset e.addr

theorem Entry.addr_updateInst (e : Entry) (ifs : Stats) (commit : Bool) :
    (e.updateInst ifs commit).addr = e.addr := by
  unfold Entry.updateInst
  split_ifs <;> rfl

theorem valid_empty : Cache.empty.Valid g where
  lastPage p h := by cases h
  page key p h := by cases h
  entry key offset e h := by cases h

/-- The pages that were there stay. -/
theorem getElem?_addPage {addr : Addr} {p : ℕ} {page : Page} (hpage : c.pages[p]? = some page) :
    (c.addPage g addr).pages[p]? = some page :=
  (List.getElem?_append_left (List.getElem?_eq_some_iff.mp hpage).1).trans hpage

/-- A new page is empty. -/
theorem entryAt_addPage (h : c.Valid g) {addr : Addr} (hkey : c.statCache (g.pageKey addr) = none) :
    (c.addPage g addr).entryAt = c.entryAt := by
  funext key offset
  by_cases hk : key = g.pageKey addr
  · have hnew : (c.addPage g addr).statCache key = some c.pages.length := by
      rw [hk]
      exact Function.update_self ..
    have hpage : (c.addPage g addr).pages[c.pages.length]? =
        some ⟨addr &&& g.pageMask, fun _ => none⟩ := List.getElem?_concat_length
    rw [Cache.entryAt, Cache.entryAt, hnew, hk, hkey, Option.bind_some, hpage]
    rfl
  · have hold : (c.addPage g addr).statCache key = c.statCache key := Function.update_of_ne hk ..
    rw [Cache.entryAt, Cache.entryAt, hold]
    cases hp : c.statCache key with
    | none => rfl
    | some p =>
      obtain ⟨page, hpage, -⟩ := h.page key p hp
      rw [Option.bind_some, Option.bind_some, hpage, getElem?_addPage hpage]

theorem Cache.Valid.addPage (hg : g.log2EntriesPerPage < 31) (h : c.Valid g) {addr : Addr}
    (hkey : c.statCache (g.pageKey addr) = none) : (c.addPage g addr).Valid g where
  lastPage := by
    rintro _ ⟨⟩
    exact ⟨g.pageKey addr, Function.update_self ..⟩
  page key p hp := by
    by_cases hk : key = g.pageKey addr
    · have hnew : (c.addPage g addr).statCache key = some c.pages.length := by
        rw [hk]
        exact Function.update_self ..
      obtain rfl := Option.some.inj (hnew.symm.trans hp)
      refine ⟨_, List.getElem?_concat_length, ?_, (pageKey_pageMask hg addr).trans hk.symm⟩
      rw [BitVec.and_assoc, BitVec.and_self]
    · have hold : (c.addPage g addr).statCache key = c.statCache key := Function.update_of_ne hk ..
      obtain ⟨page, hpage, hmask, hpageKey⟩ := h.page key p (hold ▸ hp)
      exact ⟨page, getElem?_addPage hpage, hmask, hpageKey⟩
  entry key offset e he := h.entry key offset e (entryAt_addPage h hkey ▸ he)

/-- The page that is found is that of the map, and nothing else changes. -/
theorem findPage_spec (hg : g.log2EntriesPerPage < 31) (h : c.Valid g) (addr : Addr) :
    ∃ c' p page, c.findPage g addr = (c', p) ∧ c'.Valid g ∧ c'.numInst = c.numInst ∧
      c'.statCache (g.pageKey addr) = some p ∧ c'.pages[p]? = some page ∧
      page.pageAddr = addr &&& g.pageMask ∧ c'.entryAt = c.entryAt := by
  have hpageAddr : ∀ {page : Page}, page.pageAddr &&& g.pageMask = page.pageAddr →
      g.pageKey page.pageAddr = g.pageKey addr → page.pageAddr = addr &&& g.pageMask := by
    intro page hmask hkey
    rw [← hmask]
    exact (pageMask_eq_iff hg _ _).mpr hkey
  unfold Cache.findPage
  cases hlast : c.lastPage.filter fun p =>
      (c.pages[p]?.map Page.pageAddr) = some (addr &&& g.pageMask) with
  | some p =>
    obtain ⟨hp, haddr⟩ := Option.filter_eq_some_iff.mp hlast
    obtain ⟨key, hkey⟩ := h.lastPage p hp
    obtain ⟨page, hpage, -, hpageKey⟩ := h.page key p hkey
    have haddr : page.pageAddr = addr &&& g.pageMask := by
      simpa [hpage] using haddr
    rw [haddr, pageKey_pageMask hg] at hpageKey
    exact ⟨c, p, page, rfl, h, rfl, hpageKey ▸ hkey, hpage, haddr, rfl⟩
  | none =>
    cases hkey : c.statCache (g.pageKey addr) with
    | some p =>
      obtain ⟨page, hpage, hmask, hpageKey⟩ := h.page _ p hkey
      refine ⟨{ c with lastPage := some p }, p, page, rfl, ⟨?_, h.page, h.entry⟩, rfl, hkey, hpage,
        hpageAddr hmask hpageKey, rfl⟩
      rintro _ ⟨⟩
      exact ⟨_, hkey⟩
    | none =>
      exact ⟨c.addPage g addr, c.pages.length, _, rfl, h.addPage hg hkey, rfl,
        Function.update_self .., List.getElem?_concat_length, rfl, entryAt_addPage h hkey⟩

/-- A call changes the entry of its address only, and counts the addresses. -/
theorem updateStats_spec (hg : g.log2EntriesPerPage < 31) (h : c.Valid g) (u : Update)
    (hroom : c.entryAt (g.pageKey u.addr) (g.offset u.addr) = none →
      c.numInst.toNat ≤ g.maxNumInsts) :
    ∃ c', c.updateStats g u = some c' ∧ c'.Valid g ∧
      c'.numInst = (if (c.entryAt (g.pageKey u.addr) (g.offset u.addr)).isSome then c.numInst
        else c.numInst + 1) ∧
      ∀ key offset, c'.entryAt key offset =
        if key = g.pageKey u.addr ∧ offset = g.offset u.addr then
          some (((c.entryAt key offset).getD (Entry.new u.name u.addr)).updateInst u.ifs u.commit)
        else c.entryAt key offset := by
  obtain ⟨c₁, p, page, hfind, h₁, hnum, hkey, hpage, haddr, hentry⟩ := findPage_spec hg h u.addr
  have hoffset : u.addr - page.pageAddr = g.offset u.addr := by rw [haddr, Config.offset]
  have hslot : c₁.entryAt (g.pageKey u.addr) (g.offset u.addr) = page.page (g.offset u.addr) := by
    rw [Cache.entryAt, hkey, Option.bind_some, hpage, Option.bind_some]
  rw [← hentry] at hroom ⊢
  rw [hslot] at hroom ⊢
  -- The entry is new, or it is the one of the address.
  obtain ⟨e, numInst, hget, he, hnumInst, hupdate⟩ : ∃ e numInst,
      (page.page (g.offset u.addr)).getD (Entry.new u.name u.addr) = e ∧ e.addr = u.addr ∧
      numInst = (if (page.page (g.offset u.addr)).isSome then c.numInst else c.numInst + 1) ∧
      page.updateInst g c₁.numInst u =
        some (page.store (g.offset u.addr) (e.updateInst u.ifs u.commit), numInst) := by
    have hstep : page.updateInst g c₁.numInst u =
        match page.page (g.offset u.addr) with
        | none =>
          if g.maxNumInsts < c.numInst.toNat then none
          else some (page.store (g.offset u.addr)
            ((Entry.new u.name u.addr).updateInst u.ifs u.commit), c.numInst + 1)
        | some e =>
          if e.addr = u.addr then
            some (page.store (g.offset u.addr) (e.updateInst u.ifs u.commit), c.numInst)
          else none := by
      rw [Page.updateInst, hoffset, hnum]
      simp only [if_pos (offset_lt hg u.addr), Entry.new, if_true]
    rw [hstep]
    obtain hnone | ⟨e, hsome⟩ := Option.eq_none_or_eq_some (page.page (g.offset u.addr))
    · simp only [hnone, if_neg (not_lt.mpr (hroom hnone))]
      exact ⟨_, _, rfl, rfl, rfl, rfl⟩
    · obtain ⟨hk, ho⟩ := h₁.entry _ _ e (hslot.trans hsome)
      have he : e.addr = u.addr := eq_of_pageKey hg hk.symm ho.symm
      simp only [hsome, if_pos he]
      exact ⟨e, _, rfl, he, rfl, rfl⟩
  have hlt : p < c₁.pages.length := (List.getElem?_eq_some_iff.mp hpage).1
  have hrun : c.updateStats g u = some (c₁.setPage p
      (page.store (g.offset u.addr) (e.updateInst u.ifs u.commit)) numInst) := by
    rw [Cache.updateStats, hfind]
    simp only [hpage, hupdate, Option.bind_eq_bind, Option.bind_some]
  -- The other pages, and the other offsets of this page, are as before.
  have hentries : ∀ key offset, (c₁.setPage p
      (page.store (g.offset u.addr) (e.updateInst u.ifs u.commit)) numInst).entryAt key offset =
      if key = g.pageKey u.addr ∧ offset = g.offset u.addr then
        some (e.updateInst u.ifs u.commit)
      else c₁.entryAt key offset := by
    intro key offset
    unfold Cache.entryAt Cache.setPage Page.store
    by_cases hk : key = g.pageKey u.addr
    · subst hk
      simp only [hkey, Option.bind_some, List.getElem?_set_self hlt, hpage, true_and]
      by_cases ho : offset = g.offset u.addr
      · rw [if_pos ho, ho, Function.update_self]
      · rw [if_neg ho, Function.update_of_ne ho]
    · rw [if_neg fun hboth => hk hboth.1]
      cases hp : c₁.statCache key with
      | none => rfl
      | some p' =>
        have hne : p ≠ p' := by
          rintro rfl
          obtain ⟨page', hpage', -, hkey'⟩ := h₁.page key p hp
          obtain ⟨page'', hpage'', -, hkey''⟩ := h₁.page _ p hkey
          obtain rfl := Option.some.inj (hpage'.symm.trans hpage'')
          exact hk (hkey'.symm.trans hkey'')
        rw [Option.bind_some, Option.bind_some, List.getElem?_set_ne hne]
  refine ⟨_, hrun, ⟨h₁.lastPage, ?_, ?_⟩, hnumInst, ?_⟩
  · intro key p' hp
    obtain ⟨page', hpage', hmask, hkey'⟩ := h₁.page key p' hp
    by_cases hp' : p' = p
    · subst hp'
      obtain rfl := Option.some.inj (hpage.symm.trans hpage')
      exact ⟨_, List.getElem?_set_self hlt, hmask, hkey'⟩
    · exact ⟨page', (List.getElem?_set_ne (Ne.symm hp')).trans hpage', hmask, hkey'⟩
  · intro key offset e' he'
    rw [hentries] at he'
    split_ifs at he' with hboth
    · obtain rfl := Option.some.inj he'
      rw [Entry.addr_updateInst, he]
      exact hboth
    · exact h₁.entry key offset e' he'
  · intro key offset
    rw [hentries]
    split_ifs with hboth
    · rw [hboth.1, hboth.2, hslot, hget]
    · rfl

end

/-! ### Many calls -/

/-- What the map holds for an address after some updates. -/
def statsOf (us : List Update) (addr : Addr) (commit : Bool) : Stats := fun c =>
  BitVec.ofNat 64 (total (us.filter fun u => u.addr = addr ∧ u.commit = commit) c)

section
variable {g : Config} {us : List Update}

theorem statsOf_nil (addr : Addr) (commit : Bool) : statsOf [] addr commit = fun _ => 0 := by
  funext c
  cases c <;> rfl

theorem total_append_singleton (us : List Update) (u : Update) (c : Counter) :
    BitVec.ofNat 64 (total (us ++ [u]) c) =
      Stats.accumulate (fun c => BitVec.ofNat 64 (total us c)) u.ifs c := by
  have hsum : ∀ f : Update → ℕ, ((us ++ [u]).map f).sum = (us.map f).sum + f u := by
    intro f
    rw [List.map_append, List.sum_append, List.map_singleton, List.sum_singleton]
  cases c with
  | dynInst =>
    rw [total, List.length_append, List.length_singleton, BitVec.ofNat_add]
    rfl
  | _ =>
    simp only [total, hsum, Stats.accumulate, BitVec.ofNat_add, BitVec.ofNat_toNat,
      BitVec.setWidth_eq]

theorem statsOf_concat (u : Update) (addr : Addr) (commit : Bool) :
    statsOf (us ++ [u]) addr commit =
      if u.addr = addr ∧ u.commit = commit then (statsOf us addr commit).accumulate u.ifs
      else statsOf us addr commit := by
  funext c
  rw [statsOf, List.filter_append]
  split_ifs with h
  · rw [List.filter_cons_of_pos (by simpa using h), List.filter_nil, total_append_singleton]
    rfl
  · rw [List.filter_cons_of_neg (by simpa using h), List.filter_nil, List.append_nil]
    rfl

theorem statsOf_of_notMem {addr : Addr} (h : addr ∉ us.map Update.addr) (commit : Bool) :
    statsOf us addr commit = fun _ => 0 := by
  have hfilter : (us.filter fun u => u.addr = addr ∧ u.commit = commit) = [] := by
    rw [List.filter_eq_nil_iff]
    intro u hu hboth
    exact h (List.mem_map.mpr ⟨u, hu, (of_decide_eq_true hboth).1⟩)
  funext c
  rw [statsOf, hfilter]
  cases c <;> rfl

/-- The cache is the plain map of the statistics of the addresses. -/
structure Refines (g : Config) (c : Cache) (us : List Update) : Prop where
  valid : c.Valid g
  seen : ∀ key offset e, c.entryAt key offset = some e → e.addr ∈ us.map Update.addr
  stats : ∀ addr ∈ us.map Update.addr, ∃ e, c.entryAt (g.pageKey addr) (g.offset addr) = some e ∧
    e.commInst = statsOf us addr true ∧ e.noncommInst = statsOf us addr false
  count : c.numInst.toNat ≤ (us.map Update.addr).toFinset.card

theorem refines_empty : Refines g Cache.empty [] where
  valid := valid_empty
  seen key offset e h := by cases h
  stats addr h := absurd h List.not_mem_nil
  count := Nat.le_refl _

/-- One more update. -/
theorem Refines.step (hg : g.log2EntriesPerPage < 31) {c : Cache} (h : Refines g c us) (u : Update)
    (hroom : (us.map Update.addr).toFinset.card < g.maxNumInsts) :
    ∃ c', c.updateStats g u = some c' ∧ Refines g c' (us ++ [u]) := by
  obtain ⟨c', hc', hvalid, hnum, hentry⟩ := updateStats_spec hg h.valid u
    fun _ => (h.count.trans_lt hroom).le
  have hmem : ∀ addr, addr ∈ (us ++ [u]).map Update.addr ↔
      addr ∈ us.map Update.addr ∨ addr = u.addr := by
    simp
  -- The entry of the address of the update, as it was.
  obtain ⟨e, he, haddr, hcomm, hnoncomm⟩ : ∃ e,
      (c.entryAt (g.pageKey u.addr) (g.offset u.addr)).getD (Entry.new u.name u.addr) = e ∧
      e.addr = u.addr ∧ e.commInst = statsOf us u.addr true ∧
      e.noncommInst = statsOf us u.addr false := by
    by_cases hu : u.addr ∈ us.map Update.addr
    · obtain ⟨e, he, hcomm, hnoncomm⟩ := h.stats _ hu
      obtain ⟨hkey, hoffset⟩ := h.valid.entry _ _ e he
      rw [he]
      exact ⟨e, rfl, eq_of_pageKey hg hkey.symm hoffset.symm, hcomm, hnoncomm⟩
    · have hnone : c.entryAt (g.pageKey u.addr) (g.offset u.addr) = none := by
        cases he : c.entryAt (g.pageKey u.addr) (g.offset u.addr) with
        | none => rfl
        | some e =>
          obtain ⟨hkey, hoffset⟩ := h.valid.entry _ _ e he
          have haddr : e.addr = u.addr := eq_of_pageKey hg hkey.symm hoffset.symm
          exact absurd (haddr ▸ h.seen _ _ e he) hu
      rw [hnone]
      exact ⟨_, rfl, rfl, (statsOf_of_notMem hu true).symm, (statsOf_of_notMem hu false).symm⟩
  refine ⟨c', hc', hvalid, ?_, ?_, ?_⟩
  · intro key offset e' he'
    rw [hentry] at he'
    rw [hmem]
    split_ifs at he' with hboth
    · rw [hboth.1, hboth.2, he] at he'
      obtain rfl := Option.some.inj he'
      right
      rw [Entry.addr_updateInst, haddr]
    · exact Or.inl (h.seen _ _ e' he')
  · intro addr hseen
    by_cases hu : addr = u.addr
    · subst hu
      refine ⟨e.updateInst u.ifs u.commit, ?_, ?_, ?_⟩
      · rw [hentry, if_pos ⟨rfl, rfl⟩, he]
      · rw [statsOf_concat, ← hcomm]
        cases hc : u.commit <;> simp [Entry.updateInst]
      · rw [statsOf_concat, ← hnoncomm]
        cases hc : u.commit <;> simp [Entry.updateInst]
    · obtain ⟨e', he', hcomm', hnoncomm'⟩ := h.stats addr (((hmem addr).mp hseen).resolve_right hu)
      refine ⟨e', ?_, ?_, ?_⟩
      · rw [hentry, if_neg, he']
        exact fun hboth => hu (eq_of_pageKey hg hboth.1 hboth.2)
      · rw [statsOf_concat, if_neg (fun hboth => hu hboth.1.symm), hcomm']
      · rw [statsOf_concat, if_neg (fun hboth => hu hboth.1.symm), hnoncomm']
  · have hsub : (us.map Update.addr).toFinset ⊆ ((us ++ [u]).map Update.addr).toFinset := by
      intro addr haddr
      rw [List.mem_toFinset] at haddr ⊢
      exact (hmem addr).mpr (Or.inl haddr)
    rw [hnum]
    split_ifs with hsome
    · exact h.count.trans (Finset.card_le_card hsub)
    · have hnew : u.addr ∉ (us.map Update.addr).toFinset := by
        rw [List.mem_toFinset]
        intro hu
        obtain ⟨e', he', -⟩ := h.stats _ hu
        exact hsome (he' ▸ rfl)
      have hinsert : insert u.addr (us.map Update.addr).toFinset =
          ((us ++ [u]).map Update.addr).toFinset := by
        ext addr
        rw [Finset.mem_insert, List.mem_toFinset, List.mem_toFinset, hmem, or_comm]
      rw [← hinsert, Finset.card_insert_of_notMem hnew]
      refine (BitVec.toNat_add ..).trans_le ((Nat.mod_le _ _).trans ?_)
      exact Nat.add_le_add_right h.count 1

/-- Any calls with fewer addresses than there may be. -/
theorem exists_refines (hg : g.log2EntriesPerPage < 31)
    (hroom : (us.map Update.addr).toFinset.card < g.maxNumInsts) :
    ∃ c, us.foldlM (fun c u => c.updateStats g u) Cache.empty = some c ∧ Refines g c us := by
  induction us using List.reverseRecOn with
  | nil => exact ⟨Cache.empty, rfl, refines_empty⟩
  | append_singleton us u ih =>
    have hsub : (us.map Update.addr).toFinset ⊆ ((us ++ [u]).map Update.addr).toFinset := by
      intro addr haddr
      rw [List.mem_toFinset] at haddr ⊢
      exact List.map_append ▸ List.mem_append_left _ haddr
    have hus := (Finset.card_le_card hsub).trans_lt hroom
    obtain ⟨c, hc, hrefines⟩ := ih hus
    obtain ⟨c', hc', hrefines'⟩ := hrefines.step hg u hus
    refine ⟨c', ?_, hrefines'⟩
    rw [List.foldlM_append, hc]
    simpa using hc'

/-- No assertion fails, every address that was seen has its entry with its statistics at its offset
in the page of its address, and there are no other entries. -/
theorem updateStats_refines (hg : g.log2EntriesPerPage < 31)
    (hroom : (us.map Update.addr).toFinset.card < g.maxNumInsts) :
    ∃ c, us.foldlM (fun c u => c.updateStats g u) Cache.empty = some c ∧
      (∀ addr ∈ us.map Update.addr, ∃ p page e,
        c.statCache (g.pageKey addr) = some p ∧ c.pages[p]? = some page ∧
        page.pageAddr.toNat = 2 ^ g.log2EntriesPerPage * (addr.toNat / 2 ^ g.log2EntriesPerPage) ∧
        page.page (addr - page.pageAddr) = some e ∧ e.addr = addr ∧
        e.commInst = statsOf us addr true ∧ e.noncommInst = statsOf us addr false) ∧
      ∀ key offset e, c.entryAt key offset = some e →
        e.addr ∈ us.map Update.addr ∧ key = g.pageKey e.addr ∧ offset = g.offset e.addr := by
  obtain ⟨c, hc, h⟩ := exists_refines hg hroom
  refine ⟨c, hc, ?_, fun key offset e he => ⟨h.seen _ _ e he, h.valid.entry _ _ e he⟩⟩
  intro addr hseen
  obtain ⟨e, he, hcomm, hnoncomm⟩ := h.stats addr hseen
  obtain ⟨hkey, hoffset⟩ := h.valid.entry _ _ e he
  obtain ⟨p, hp, hslot⟩ := Option.bind_eq_some_iff.mp he
  obtain ⟨page, hpage, hslot⟩ := Option.bind_eq_some_iff.mp hslot
  obtain ⟨page', hpage', hmask, hpageKey⟩ := h.valid.page _ p hp
  obtain rfl := Option.some.inj (hpage.symm.trans hpage')
  have hpageAddr : page.pageAddr = addr &&& g.pageMask := by
    rw [← hmask]
    exact (pageMask_eq_iff hg _ _).mpr hpageKey
  refine ⟨p, page, e, hp, hpage, ?_, ?_, eq_of_pageKey hg hkey.symm hoffset.symm, hcomm, hnoncomm⟩
  · rw [hpageAddr, toNat_pageMask hg]
  · rw [hpageAddr]
    exact hslot

end

/-- Two instructions of one page, the first one twice. -/
theorem updateStats_refines_twice : ∃ c, ([⟨0x12345, [], fun _ => 3, true⟩,
      ⟨0x12346, [], fun _ => 5, false⟩, ⟨0x12345, [], fun _ => 4, true⟩] : List Update).foldlM
        (fun c u => c.updateStats ⟨10, 100000⟩ u) Cache.empty = some c ∧
    ∃ e, c.entryAt 0x48 0x345 = some e ∧ e.commInst .dynInst = 2 ∧ e.commInst .issue = 7 := by
  obtain ⟨c, hc, hstats, -⟩ := @updateStats_refines ⟨10, 100000⟩
    [⟨0x12345, [], fun _ => 3, true⟩, ⟨0x12346, [], fun _ => 5, false⟩,
      ⟨0x12345, [], fun _ => 4, true⟩] (by decide) (by decide)
  obtain ⟨p, page, e, hp, hpage, hpageAddr, hslot, -, hcomm, -⟩ := hstats 0x12345 (by decide)
  refine ⟨c, hc, e, ?_, ?_, ?_⟩
  · have haddr : page.pageAddr = 0x12000 := BitVec.eq_of_toNat_eq (hpageAddr.trans (by decide))
    rw [haddr] at hslot
    rw [Cache.entryAt, show (0x48 : Addr) = Config.pageKey ⟨10, 100000⟩ 0x12345 from rfl, hp,
      Option.bind_some, hpage]
    exact hslot
  · rw [hcomm]
    rfl
  · rw [hcomm]
    rfl

end Awb.InstProfile
