/-
The index file over a whole run of writes and erasures.

A client keeps the entries it has on disk in `live`, and calls
`WriteRecordIndexToDisk` with a new key or with the slot the key has, and
`EraseRecord` with a key it has; it can also be restarted, which loads the file
again. `RoundTrip` is what holds between the client, the members of `IndexBlock`
and the file in every state of such a run.
-/
import TransDB.IndexBlockSpec
import TransDB.Machine

set_option autoImplicit false

namespace TransDB

/-- What is left of an entry in memory when the file is loaded again. -/
def RecordIndex.reloaded (r : RecordIndex) : RecordIndex :=
  { r with m_pBlockManager := none, relocateBlocks := false, dirty := false,
           inDiskWriteQueue := false }

namespace IndexBlock

theorem loadedIndex_slot (slot : ℕ × ℕ) (d : DREC) (h : slot.2 < slotsPerBlock) :
    (loadedIndex slot d).slot = some slot :=
  RecordIndex.slot_of_offset h rfl rfl

theorem reloaded_eq {x : UInt64} {r : RecordIndex} {n j : ℕ} (hnum : r.m_IB_blockNumber = n)
    (hoff : r.m_IB_recordOffset = slotOffset j) : loadedIndex (n, j) (r.toDREC x) = r.reloaded := by
  rw [RecordIndex.reloaded, hnum, hoff]
  rfl

/-- The client of an index file. -/
structure Client where
  index : IndexBlock
  hFile : IndexFile
  live : RecordIndexMap

/-- The calls. `cacheSize` is what the call reads as `IndexBlockCacheSize`. -/
inductive Call
  | write (cacheSize : ℕ) (x : UInt64) (r : RecordIndex)
  | erase (cacheSize : ℕ) (r : RecordIndex) (x : UInt64)
  | restart (order : List ((ℕ × ℕ) × DREC))

namespace Client

/-- No index file yet. -/
def empty : Client := ⟨new, [], ∅⟩

def step (s : Client) : Call → Option Client
  | .write cacheSize x r => do
    let (index, hFile, r) ← s.index.writeRecordIndex cacheSize s.hFile x r
    return ⟨index, hFile, s.live.insert x r⟩
  | .erase cacheSize r x => do
    let (index, hFile) ←
      s.index.EraseRecord cacheSize s.hFile r.m_IB_blockNumber r.m_IB_recordOffset
    return ⟨index, hFile, s.live.erase x⟩
  | .restart order =>
    let (_, index, live, _) := new.Init s.hFile order (some ∅) ∅ 0
    return ⟨index, s.hFile, live.getD ∅⟩

/-- The calls a client may make: an entry without a slot is new, any other is the
client's own; only what was written is erased, or an entry without a slot; a
restart reads the whole file. -/
def Allowed (s : Client) : Call → Prop
  | .write _ x r => 1 ≤ r.m_blockCount ∧
    match s.live.lookup x with
    | none => r.m_IB_recordOffset = -1
    | some r0 => r.m_IB_blockNumber = r0.m_IB_blockNumber
      ∧ r.m_IB_recordOffset = r0.m_IB_recordOffset
  | .erase _ r x =>
    match s.live.lookup x with
    | none => r.m_IB_recordOffset = -1
    | some r0 => r.m_IB_blockNumber = r0.m_IB_blockNumber
      ∧ r.m_IB_recordOffset = r0.m_IB_recordOffset
  | .restart order => order.Perm (fileEntries 0 s.hFile)

def machine : Machine Client Call where
  init s := s = empty
  step := step

/-- Allowed calls, on a file of fewer than 2^20 blocks. -/
def Ok (s : Client) (c : Call) (_ : Client) : Prop := s.hFile.length < 2 ^ 20 ∧ s.Allowed c

/-! ## The invariant -/

/-- The records of the entries of a client. -/
def entries (live : RecordIndexMap) : List ((ℕ × ℕ) × DREC) :=
  KeyMap.collect RecordIndex.slotEntry live

structure Inv (s : Client) : Prop where
  index : s.index.Inv s.hFile
  entries : (fileEntries 0 s.hFile).Perm (entries s.live)
  slot : ∀ x r, s.live.lookup x = some r → r.slot ≠ none

/-- The entries loaded from records of distinct keys have just these records. -/
theorem entries_fillMap {order : List ((ℕ × ℕ) × DREC)} {m : RecordIndexMap}
    (hkeys : (order.map fun e => e.2.m_key).Nodup) (hslots : ∀ e ∈ order, e.1.2 < slotsPerBlock)
    (hnew : ∀ e ∈ order, e.2.m_key ∉ m) :
    (entries (fillMap order m)).Perm (order ++ entries m) := by
  induction order generalizing m with
  | nil => exact List.Perm.refl _
  | cons e es ih =>
    rw [List.map_cons, List.nodup_cons] at hkeys
    have he := hnew e List.mem_cons_self
    have hentry : (loadedIndex e.1 e.2).slotEntry e.2.m_key = [e] :=
      RecordIndex.slotEntry_eq (loadedIndex_slot e.1 e.2 (hslots e List.mem_cons_self))
    have hins : entries (m.insert e.2.m_key (loadedIndex e.1 e.2)) = e :: entries m := by
      rw [entries, KeyMap.collect_insert,
        KeyMap.collect_erase_of_none (AList.lookup_eq_none.mpr he), hentry]
      rfl
    have hstep : fillMap (e :: es) m = fillMap es (m.insert e.2.m_key (loadedIndex e.1 e.2)) := by
      rw [fillMap, List.foldl_cons, if_neg he]
      rfl
    rw [hstep]
    refine (ih hkeys.2 (fun f hf => hslots f (List.mem_cons_of_mem _ hf)) ?_).trans ?_
    · intro f hf hmem
      rcases (AList.mem_insert _).mp hmem with heq | hmem
      · exact hkeys.1 (List.mem_map.mpr ⟨f, hf, heq⟩)
      · exact hnew f (List.mem_cons_of_mem _ hf) hmem
    · rw [hins]
      exact List.perm_middle

theorem slotEntry_key {x : UInt64} {r : RecordIndex} {e : (ℕ × ℕ) × DREC}
    (h : e ∈ r.slotEntry x) : e.2.m_key = x := by
  rw [RecordIndex.slotEntry] at h
  split at h
  · rw [List.mem_singleton.mp h]
    rfl
  · cases h

theorem slotEntry_nodup (x : UInt64) (r : RecordIndex) :
    ((r.slotEntry x).map fun e => e.2.m_key).Nodup := by
  rw [RecordIndex.slotEntry]
  split
  · exact List.nodup_singleton _
  · exact List.nodup_nil

theorem entries_keys_nodup (live : RecordIndexMap) :
    ((entries live).map fun e => e.2.m_key).Nodup :=
  KeyMap.collect_nodup (fun _ _ _ he => slotEntry_key he) slotEntry_nodup

namespace Inv

variable {s : Client}

theorem keys_nodup (h : s.Inv) : ((fileEntries 0 s.hFile).map fun e => e.2.m_key).Nodup :=
  (h.entries.map _).nodup_iff.mpr (entries_keys_nodup s.live)

/-- An entry of the client is the record of its slot. -/
theorem exists_slot (h : s.Inv) {x : UInt64} {r : RecordIndex} (hx : s.live.lookup x = some r) :
    ∃ n j, r.m_IB_blockNumber = n ∧ r.m_IB_recordOffset = slotOffset j
      ∧ r.slotEntry x = [((n, j), r.toDREC x)]
      ∧ ((n, j), r.toDREC x) ∈ fileEntries 0 s.hFile := by
  obtain ⟨⟨n, j⟩, hslot⟩ := Option.ne_none_iff_exists'.mp (h.slot x r hx)
  obtain ⟨hnum, hoff⟩ := RecordIndex.slot_eq_some hslot
  have hentry := RecordIndex.slotEntry_eq (x := x) hslot
  refine ⟨n, j, hnum, hoff, hentry, h.entries.mem_iff.mpr ?_⟩
  refine KeyMap.mem_collect.mpr ⟨x, r, hx, ?_⟩
  rw [hentry]
  exact List.mem_singleton_self _

/-- The records left when those of one key are taken out. -/
theorem rest_perm (h : s.Inv) {x : UInt64} {r : RecordIndex} {e : (ℕ × ℕ) × DREC}
    {rest : List ((ℕ × ℕ) × DREC)} (hx : s.live.lookup x = some r) (he : r.slotEntry x = [e])
    (hrest : (fileEntries 0 s.hFile).Perm (e :: rest)) :
    rest.Perm (Client.entries (s.live.erase x)) := by
  have hlive := KeyMap.collect_perm (f := RecordIndex.slotEntry) hx
  rw [he] at hlive
  exact ((hrest.symm.trans h.entries).trans hlive).cons_inv

theorem slot_insert (h : s.Inv) {x : UInt64} {r : RecordIndex} (hr : r.slot ≠ none) :
    ∀ y r', (s.live.insert x r).lookup y = some r' → r'.slot ≠ none := by
  intro y r' hy
  by_cases heq : y = x
  · rw [heq, AList.lookup_insert, Option.some.injEq] at hy
    rw [← hy]
    exact hr
  · rw [AList.lookup_insert_ne heq] at hy
    exact h.slot y r' hy

theorem empty : Inv empty := by
  refine ⟨⟨by decide, rfl, ?_, ?_, ?_, [], LRUCache.IsList.empty, ?_⟩, List.Perm.refl _, ?_⟩
  · intro b hb
    cases hb
  · intro n
    constructor
    · intro hn
      exact absurd hn (Finset.notMem_empty n)
    · rintro ⟨b, hb, -⟩
      cases hb
  · intro n b hb
    cases hb
  · intro x
    constructor
    · intro hx
      cases hx
    · rintro ⟨n, hn, -⟩
      exact absurd hn (AList.notMem_empty n)
  · intro x r hx
    cases hx

/-- An allowed write returns and keeps the invariant. -/
theorem write (h : s.Inv) {cacheSize : ℕ} {x : UInt64} {r : RecordIndex}
    (hlt : s.hFile.length < 2 ^ 20) (hok : s.Allowed (.write cacheSize x r)) :
    ∃ t, s.step (.write cacheSize x r) = some t ∧ t.Inv := by
  obtain ⟨hcount, hok⟩ := hok
  rcases hx : s.live.lookup x with _ | r0
  · rw [hx] at hok
    obtain ⟨index, hFile, n, j, hw, hj, hindex, -, hperm⟩ :=
      h.index.write_new hlt cacheSize x hok hcount s.index.m_freeBlocks.card
    obtain ⟨r', hr'⟩ : ∃ r' : RecordIndex,
        r' = { r with m_IB_blockNumber := n, m_IB_recordOffset := slotOffset j } := ⟨_, rfl⟩
    have hslot : r'.slot = some (n, j) := by
      rw [hr']
      exact RecordIndex.slot_of_offset hj rfl rfl
    refine ⟨⟨index, hFile, s.live.insert x r'⟩, ?_, hindex, ?_, ?_⟩
    · simp only [step, writeRecordIndex, hw, hr', Option.bind_eq_bind, Option.bind_some]
      rfl
    · rw [Client.entries, KeyMap.collect_insert, KeyMap.collect_erase_of_none hx,
        RecordIndex.slotEntry_eq hslot, hr']
      exact hperm.trans (h.entries.cons _)
    · refine h.slot_insert ?_
      rw [hslot]
      rintro ⟨⟩
  · rw [hx] at hok
    obtain ⟨n, j, hnum, hoff, hentry, hmem⟩ := h.exists_slot hx
    have hnum' : r.m_IB_blockNumber = n := hok.1.trans hnum
    have hoff' : r.m_IB_recordOffset = slotOffset j := hok.2.trans hoff
    obtain ⟨index, hFile, rest, hw, hindex, -, hold, hnew⟩ :=
      h.index.rewrite cacheSize x hmem hnum' hoff' hcount s.index.m_freeBlocks.card
    obtain ⟨b, -, -, -, hj, -⟩ := h.index.exists_block hmem
    have hslot : r.slot = some (n, j) := RecordIndex.slot_of_offset hj hnum' hoff'
    refine ⟨⟨index, hFile, s.live.insert x r⟩, ?_, hindex, ?_, ?_⟩
    · simp only [step, writeRecordIndex, hw, Option.bind_eq_bind, Option.bind_some]
      rfl
    · rw [Client.entries, KeyMap.collect_insert, RecordIndex.slotEntry_eq hslot]
      exact hnew.trans ((h.rest_perm hx hentry hold).cons _)
    · refine h.slot_insert ?_
      rw [hslot]
      rintro ⟨⟩

theorem slot_erase (h : s.Inv) (x : UInt64) :
    ∀ y r, (s.live.erase x).lookup y = some r → r.slot ≠ none := by
  intro y r hy
  by_cases heq : y = x
  · rw [heq, AList.lookup_erase] at hy
    cases hy
  · rw [AList.lookup_erase_ne heq] at hy
    exact h.slot y r hy

/-- An allowed erasure returns and keeps the invariant. -/
theorem erase (h : s.Inv) {cacheSize : ℕ} {x : UInt64} {r : RecordIndex}
    (hok : s.Allowed (.erase cacheSize r x)) :
    ∃ t, s.step (.erase cacheSize r x) = some t ∧ t.Inv := by
  rw [Allowed] at hok
  rcases hx : s.live.lookup x with _ | r0
  · rw [hx] at hok
    refine ⟨⟨s.index, s.hFile, s.live.erase x⟩, ?_, h.index, ?_, h.slot_erase x⟩
    · have hoff : r.m_IB_recordOffset = -1 := hok
      simp only [step, EraseRecord, if_pos hoff, Option.bind_eq_bind, Option.bind_some]
      rfl
    · rw [Client.entries, KeyMap.collect_erase_of_none hx]
      exact h.entries
  · rw [hx] at hok
    obtain ⟨n, j, hnum, hoff, hentry, hmem⟩ := h.exists_slot hx
    obtain ⟨index, hFile, rest, he, hindex, -, hold, hnew⟩ := h.index.erase cacheSize hmem
    refine ⟨⟨index, hFile, s.live.erase x⟩, ?_, hindex, hnew.trans (h.rest_perm hx hentry hold),
      h.slot_erase x⟩
    simp only [step, hok.1.trans hnum, hok.2.trans hoff, he, Option.bind_eq_bind, Option.bind_some]
    rfl

/-- A restart returns and keeps the invariant. -/
theorem restart (h : s.Inv) {order : List ((ℕ × ℕ) × DREC)}
    (horder : order.Perm (fileEntries 0 s.hFile)) :
    ∃ t, s.step (.restart order) = some t ∧ t.Inv := by
  have hkeys : (order.map fun e => e.2.m_key).Nodup :=
    (horder.map _).nodup_iff.mpr h.keys_nodup
  have hslots : ∀ e ∈ order, e.1.2 < slotsPerBlock := by
    intro e he
    obtain ⟨b, -, -, -, hj, -⟩ := h.index.exists_block (horder.mem_iff.mp he)
    exact hj
  refine ⟨⟨(new.Init s.hFile order (some ∅) ∅ 0).2.1, s.hFile, fillMap order ∅⟩, ?_,
    Init_inv h.index.counted ∅, ?_, ?_⟩
  · have hmap : (new.Init s.hFile order (some ∅) ∅ 0).2.2.1 = some (fillMap order ∅) :=
      Init_map new (some ∅)
    simp only [step, hmap]
    rfl
  · have hperm := entries_fillMap hkeys hslots (fun e _ => AList.notMem_empty e.2.m_key)
    rw [show Client.entries ∅ = [] from rfl, List.append_nil] at hperm
    exact (hperm.trans horder).symm
  · intro x r hx
    rcases (lookup_fillMap ∅ hkeys).mp hx with hx | ⟨-, e, he, -, rfl⟩
    · cases hx
    · rw [loadedIndex_slot e.1 e.2 (hslots e he)]
      rintro ⟨⟩

/-- The map a restart builds is the client's. -/
theorem lookup_restart (h : s.Inv) {order : List ((ℕ × ℕ) × DREC)}
    (horder : order.Perm (fileEntries 0 s.hFile)) (x : UInt64) (r : RecordIndex) :
    (fillMap order ∅).lookup x = some r ↔ ∃ r0, s.live.lookup x = some r0 ∧ r = r0.reloaded := by
  have hkeys : (order.map fun e => e.2.m_key).Nodup :=
    (horder.map _).nodup_iff.mpr h.keys_nodup
  rw [lookup_fillMap ∅ hkeys]
  constructor
  · rintro (hx | ⟨-, e, he, rfl, rfl⟩)
    · cases hx
    · obtain ⟨y, r0, hy, hmem⟩ :=
        KeyMap.mem_collect.mp (h.entries.mem_iff.mp (horder.mem_iff.mp he))
      have hkey := slotEntry_key hmem
      obtain ⟨n, j, hnum, hoff, hentry, -⟩ := h.exists_slot hy
      rw [hentry, List.mem_singleton] at hmem
      rw [hkey]
      refine ⟨r0, hy, ?_⟩
      rw [hmem]
      exact reloaded_eq hnum hoff
  · rintro ⟨r0, hx, rfl⟩
    obtain ⟨n, j, hnum, hoff, -, hmem⟩ := h.exists_slot hx
    exact Or.inr ⟨AList.notMem_empty x, _, horder.mem_iff.mpr hmem, rfl, reloaded_eq hnum hoff⟩

/-- Every allowed call returns, and keeps the invariant. -/
theorem step (h : s.Inv) {c : Call} (hlt : s.hFile.length < 2 ^ 20) (hok : s.Allowed c) :
    ∃ t, s.step c = some t ∧ t.Inv := by
  cases c with
  | write cacheSize x r => exact h.write hlt hok
  | erase cacheSize r x => exact h.erase hok
  | restart order => exact h.restart hok

end Inv

theorem reach_inv {s : Client} (h : machine.Reach Ok s) : s.Inv := by
  refine h.invariant Inv (fun s hs => ?_) (fun s c t hs hok hst => ?_)
  · rw [hs]
    exact Inv.empty
  · obtain ⟨t', hst', ht'⟩ := hs.step hok.1 hok.2
    rw [show machine.step s c = s.step c from rfl, hst'] at hst
    rw [← Option.some.inj hst]
    exact ht'

/-! ## The round trip -/

/-- What the members of `IndexBlock`, the file and the client agree on. -/
structure RoundTrip (s : Client) : Prop where
  /-- Cached blocks are the blocks on disk. -/
  cache : ∀ n b, s.index.m_rDiskBlockCache.lookup n = some b → s.hFile[n]? = some b
  /-- The LRU holds the numbers of the cached blocks, each once. -/
  lru : ∃ l, s.index.m_pLRUCache.IsList l ∧ l.Nodup
    ∧ ∀ x, x ∈ l ↔ ∃ n, n ∈ s.index.m_rDiskBlockCache ∧ x = UInt64.ofNat n
  /-- The free bytes are those of the empty slots. -/
  amount : ∀ b ∈ s.hFile, b.m_amountOfFreeSpace = sizeofDREC * b.slots.countP DREC.isEmpty
  /-- `m_freeBlocks` are the blocks with an empty slot. -/
  free : ∀ n, n ∈ s.index.m_freeBlocks ↔ ∃ b, s.hFile[n]? = some b ∧ ∃ d ∈ b.slots, d.isEmpty
  /-- `GetEmptyDREC` finds a slot in a block of `m_freeBlocks`. -/
  get_empty : ∀ n ∈ s.index.m_freeBlocks, ∀ b, s.hFile[n]? = some b → b.GetEmptyDREC ≠ none
  /-- A live entry has a slot, and its record is in it. -/
  own_record : ∀ x r, s.live.lookup x = some r → ∃ b j, s.hFile[r.m_IB_blockNumber]? = some b
    ∧ slotAt r.m_IB_recordOffset = some j ∧ b.slots[j]? = some (r.toDREC x)
  /-- Two live entries have two slots. -/
  own_slot : ∀ x y r r', s.live.lookup x = some r → s.live.lookup y = some r' →
    r.m_IB_blockNumber = r'.m_IB_blockNumber → r.m_IB_recordOffset = r'.m_IB_recordOffset → x = y
  /-- `Init` on the file rebuilds the live entries and `m_freeBlocks`, in whatever
  order the parallel tasks come to the records. -/
  reload : ∀ order fs size, order.Perm (fileEntries 0 s.hFile) →
    (new.Init s.hFile order (some ∅) fs size).2.1.m_freeBlocks = s.index.m_freeBlocks
      ∧ (new.Init s.hFile order (some ∅) fs size).2.1.m_blockCount = s.index.m_blockCount
      ∧ ∃ m, (new.Init s.hFile order (some ∅) fs size).2.2.1 = some m
        ∧ ∀ x r, m.lookup x = some r ↔ ∃ r0, s.live.lookup x = some r0 ∧ r = r0.reloaded
  /-- The next call returns. -/
  returns : s.hFile.length < 2 ^ 20 → ∀ c, s.Allowed c → s.step c ≠ none

/-- **The index file and its cache**: in every run of allowed calls, for every
size of the cache, on a file of fewer than 2^20 blocks. -/
theorem index_round_trip {s : Client} (h : machine.Reach Ok s) : s.RoundTrip := by
  have hinv := reach_inv h
  have hempty : ∀ b : IndexDiskBlock, 0 < b.emptySlots ↔ ∃ d ∈ b.slots, d.isEmpty := fun b =>
    List.countP_pos_iff
  have hfree : ∀ n, n ∈ s.index.m_freeBlocks ↔
      ∃ b, s.hFile[n]? = some b ∧ ∃ d ∈ b.slots, d.isEmpty := by
    intro n
    rw [hinv.index.free]
    simp only [hempty]
  refine ⟨hinv.index.cache, ?_, hinv.index.amount, hfree, ?_, ?_, ?_, ?_, ?_⟩
  · obtain ⟨l, hl, hmem⟩ := hinv.index.lru
    exact ⟨l, hl, hl.nodup, hmem⟩
  · intro n hn b hb hnone
    obtain ⟨b', hb', hpos⟩ := (hinv.index.free n).mp hn
    rw [hb] at hb'
    cases hb'
    obtain ⟨j, d, hj, -⟩ := b.GetEmptyDREC_spec hpos
    rw [hnone] at hj
    cases hj
  · intro x r hx
    obtain ⟨n, j, hnum, hoff, -, hmem⟩ := hinv.exists_slot hx
    obtain ⟨b, hb, hd, -, hj, -⟩ := hinv.index.exists_block hmem
    refine ⟨b, j, ?_, ?_, hd⟩
    · rw [hnum]
      exact hb
    · rw [hoff]
      exact slotAt_slotOffset hj
  · intro x y r r' hx hy hnum hoff
    obtain ⟨n, j, hn, hj, -, hmem⟩ := hinv.exists_slot hx
    obtain ⟨n', j', hn', hj', -, hmem'⟩ := hinv.exists_slot hy
    have hslot : (n, j) = (n', j') :=
      Prod.ext (hn.symm.trans (hnum.trans hn'))
        (slotOffset_injective (hj.symm.trans (hoff.trans hj')))
    have heq := List.inj_on_of_nodup_map (fileEntries_nodup 0 s.hFile) hmem hmem' hslot
    exact congrArg (fun e => e.2.m_key) heq
  · intro order fs size horder
    refine ⟨?_, ?_, fillMap order ∅, Init_map new (some ∅), hinv.lookup_restart horder⟩
    · ext n
      rw [(Init_inv hinv.index.counted ∅).free, hinv.index.free]
    · rw [(Init_inv hinv.index.counted ∅).count, hinv.index.count]
  · intro hlt c hok hnone
    obtain ⟨t, ht, -⟩ := hinv.step hlt hok
    rw [hnone] at ht
    cases ht

/-- A key written with a cache of no bytes, and the file loaded again. -/
theorem index_round_trip_restart : ∃ s t,
    empty.step (.write 0 7 ⟨0, none, 1, -1, 0, 5, true, true, true⟩) = some s
      ∧ s.step (.restart (fileEntries 0 s.hFile)) = some t ∧ t.RoundTrip := by
  have h0 : machine.Reach Ok empty := .init empty rfl
  have hok : empty.Allowed (.write 0 7 ⟨0, none, 1, -1, 0, 5, true, true, true⟩) := ⟨by decide, rfl⟩
  obtain ⟨s, hs, hinv⟩ := Inv.empty.write (by decide) hok
  have h1 : machine.Reach Ok s := .step empty s _ h0 ⟨by decide, hok⟩ hs
  have hlen : s.hFile.length < 2 ^ 20 := by
    obtain ⟨_, _, _, _, hw, -, -, hwrote, -⟩ := Inv.empty.index.write_new (by decide) 0 7 (r :=
      ⟨0, none, 1, -1, 0, 5, true, true, true⟩) rfl (by decide) empty.index.m_freeBlocks.card
    simp only [step, writeRecordIndex, hw, Option.bind_eq_bind, Option.bind_some] at hs
    rw [← Option.some.inj hs]
    exact Nat.lt_of_le_of_lt hwrote.length.2 (by decide)
  obtain ⟨t, ht, -⟩ := hinv.restart (List.Perm.refl (fileEntries 0 s.hFile))
  have hokt : Ok s (.restart (fileEntries 0 s.hFile)) t := ⟨hlen, List.Perm.refl _⟩
  exact ⟨s, t, hs, ht, index_round_trip (.step s t _ h1 hokt ht)⟩

end Client

end IndexBlock

end TransDB
