/-
What the functions of `IndexBlock.cpp` do to the records of the file.

`fileEntries` is the file as a list of records with their slots, and the three
calls that change the file are an insertion, a replacement and a removal on that
list, up to its order. `Inv` is what the calls keep between the file and the
members of `IndexBlock`: the cache is a part of the file, the LRU knows what is
cached, the free bytes are counted right, and `m_freeBlocks` are the blocks with
an empty slot.
-/
import TransDB.IndexBlock

set_option autoImplicit false

namespace TransDB

/-! ## The records of the file -/

/-- A slot with what is in it, unless it is empty. -/
def entry (slot : ℕ × ℕ) (d : DREC) : List ((ℕ × ℕ) × DREC) :=
  if d.isEmpty then [] else [(slot, d)]

theorem entry_empty (slot : ℕ × ℕ) {d : DREC} (h : d.isEmpty = true) : entry slot d = [] :=
  if_pos h

theorem entry_full (slot : ℕ × ℕ) {d : DREC} (h : d.isEmpty = false) :
    entry slot d = [(slot, d)] := by
  rw [entry, h]
  rfl

theorem DREC.isEmpty_zero : DREC.zero.isEmpty = true := rfl

theorem DREC.isEmpty_of_blockCount {d : DREC} (h : 1 ≤ d.m_blockCount) : d.isEmpty = false := by
  rw [DREC.isEmpty, decide_eq_false_iff_not]
  rintro ⟨-, -, hzero, -⟩
  omega

namespace IndexBlock

theorem entriesFrom_cons (n j : ℕ) (d : DREC) (ds : List DREC) :
    entriesFrom n j (d :: ds) = entry (n, j) d ++ entriesFrom n (j + 1) ds := rfl

theorem mem_entriesFrom {n k : ℕ} {ds : List DREC} {e : (ℕ × ℕ) × DREC} :
    e ∈ entriesFrom n k ds ↔
      e.1.1 = n ∧ k ≤ e.1.2 ∧ ds[e.1.2 - k]? = some e.2 ∧ e.2.isEmpty = false := by
  induction ds generalizing k with
  | nil =>
    constructor
    · intro h
      cases h
    · rintro ⟨-, -, h, -⟩
      cases h
  | cons d ds ih =>
    rw [entriesFrom_cons, List.mem_append, ih]
    constructor
    · rintro (h | ⟨hn, hk, hd, hne⟩)
      · rcases hd : d.isEmpty with _ | _
        · rw [entry_full _ hd, List.mem_singleton] at h
          rw [h]
          refine ⟨rfl, Nat.le_refl _, ?_, hd⟩
          rw [Nat.sub_self]
          rfl
        · rw [entry_empty _ hd] at h
          cases h
      · refine ⟨hn, by omega, ?_, hne⟩
        have hidx : e.1.2 - k = e.1.2 - (k + 1) + 1 := by omega
        rw [hidx, List.getElem?_cons_succ]
        exact hd
    · rintro ⟨hn, hk, hd, hne⟩
      by_cases heq : e.1.2 = k
      · left
        rw [heq, Nat.sub_self, List.getElem?_cons_zero] at hd
        cases hd
        rw [entry_full _ hne, List.mem_singleton]
        exact Prod.ext (Prod.ext hn heq) rfl
      · right
        refine ⟨hn, by omega, ?_, hne⟩
        have hidx : e.1.2 - k = e.1.2 - (k + 1) + 1 := by omega
        rw [hidx, List.getElem?_cons_succ] at hd
        exact hd

theorem mem_fileEntries_from {k : ℕ} {file : IndexFile} {e : (ℕ × ℕ) × DREC} :
    e ∈ fileEntries k file ↔
      k ≤ e.1.1 ∧ ∃ b, file[e.1.1 - k]? = some b ∧ b.slots[e.1.2]? = some e.2
        ∧ e.2.isEmpty = false := by
  induction file generalizing k with
  | nil =>
    constructor
    · intro h
      cases h
    · rintro ⟨-, b, h, -⟩
      cases h
  | cons b bs ih =>
    rw [fileEntries, List.mem_append, ih, mem_entriesFrom]
    constructor
    · rintro (⟨hn, -, hd, hne⟩ | ⟨hk, b', hb, hd, hne⟩)
      · refine ⟨by omega, b, ?_, hd, hne⟩
        rw [hn, Nat.sub_self]
        rfl
      · refine ⟨by omega, b', ?_, hd, hne⟩
        have hidx : e.1.1 - k = e.1.1 - (k + 1) + 1 := by omega
        rw [hidx, List.getElem?_cons_succ]
        exact hb
    · rintro ⟨hk, b', hb, hd, hne⟩
      by_cases heq : e.1.1 = k
      · left
        rw [heq, Nat.sub_self, List.getElem?_cons_zero] at hb
        cases hb
        exact ⟨heq, Nat.zero_le _, hd, hne⟩
      · right
        refine ⟨by omega, b', ?_, hd, hne⟩
        have hidx : e.1.1 - k = e.1.1 - (k + 1) + 1 := by omega
        rw [hidx, List.getElem?_cons_succ] at hb
        exact hb

/-- A record of the file is what its slot holds. -/
theorem mem_fileEntries {file : IndexFile} {n j : ℕ} {d : DREC} :
    ((n, j), d) ∈ fileEntries 0 file ↔
      ∃ b, file[n]? = some b ∧ b.slots[j]? = some d ∧ d.isEmpty = false := by
  rw [mem_fileEntries_from]
  exact and_iff_right (Nat.zero_le _)

/-- No slot is listed twice. -/
theorem fileEntries_nodup (k : ℕ) (file : IndexFile) :
    ((fileEntries k file).map Prod.fst).Nodup := by
  have hblock : ∀ (n j : ℕ) (ds : List DREC), ((entriesFrom n j ds).map Prod.fst).Nodup := by
    intro n j ds
    induction ds generalizing j with
    | nil => exact List.nodup_nil
    | cons d ds ih =>
      rw [entriesFrom_cons]
      rcases hd : d.isEmpty with _ | _
      · rw [entry_full _ hd, List.singleton_append, List.map_cons, List.nodup_cons]
        refine ⟨?_, ih (j + 1)⟩
        intro hmem
        obtain ⟨e, he, heq⟩ := List.mem_map.mp hmem
        have hle := (mem_entriesFrom.mp he).2.1
        rw [heq] at hle
        exact Nat.not_succ_le_self j hle
      · rw [entry_empty _ hd, List.nil_append]
        exact ih (j + 1)
  induction file generalizing k with
  | nil => exact List.nodup_nil
  | cons b bs ih =>
    rw [fileEntries, List.map_append, List.nodup_append]
    refine ⟨hblock k 0 b.slots, ih (k + 1), ?_⟩
    intro s hs t ht heq
    obtain ⟨e, he, rfl⟩ := List.mem_map.mp hs
    obtain ⟨f, hf, rfl⟩ := List.mem_map.mp ht
    have h1 := (mem_entriesFrom.mp he).1
    have h2 := (mem_fileEntries_from.mp hf).1
    rw [heq] at h1
    omega

/-- A slot overwritten: the other records stay. -/
theorem entriesFrom_set {n j k : ℕ} {ds : List DREC} (hj : j < ds.length) :
    ∃ rest, ∀ d, (entriesFrom n k (ds.set j d)).Perm (entry (n, k + j) d ++ rest) := by
  induction ds generalizing j k with
  | nil => exact absurd hj (Nat.not_lt_zero _)
  | cons d0 ds ih =>
    cases j with
    | zero =>
      refine ⟨entriesFrom n (k + 1) ds, fun d => ?_⟩
      rw [List.set_cons_zero, entriesFrom_cons]
      exact List.Perm.refl _
    | succ j =>
      obtain ⟨rest, hrest⟩ := ih (k := k + 1) (Nat.lt_of_succ_lt_succ hj)
      refine ⟨entry (n, k) d0 ++ rest, fun d => ?_⟩
      rw [List.set_cons_succ, entriesFrom_cons]
      have hidx : k + (j + 1) = k + 1 + j := by omega
      rw [hidx]
      refine ((hrest d).append_left _).trans ?_
      rw [← List.append_assoc, ← List.append_assoc]
      exact List.perm_append_comm.append_right _

theorem fileEntries_set_from {k i j : ℕ} {file : IndexFile} {b : IndexDiskBlock}
    (hb : file[i]? = some b) (hj : j < b.slots.length) :
    ∃ rest, ∀ (b' : IndexDiskBlock) d, b'.slots = b.slots.set j d →
      (fileEntries k (file.set i b')).Perm (entry (k + i, j) d ++ rest) := by
  induction file generalizing i k with
  | nil => cases hb
  | cons c file ih =>
    cases i with
    | zero =>
      cases hb
      obtain ⟨rest, hrest⟩ := entriesFrom_set (n := k) (k := 0) hj
      refine ⟨rest ++ fileEntries (k + 1) file, fun b' d hd => ?_⟩
      rw [List.set_cons_zero, fileEntries, hd, ← List.append_assoc]
      have hperm := hrest d
      rw [Nat.zero_add] at hperm
      exact hperm.append_right _
    | succ i =>
      rw [List.getElem?_cons_succ] at hb
      obtain ⟨rest, hrest⟩ := ih (k := k + 1) hb
      refine ⟨entriesFrom k 0 c.slots ++ rest, fun b' d hd => ?_⟩
      rw [List.set_cons_succ, fileEntries]
      have hidx : k + (i + 1) = k + 1 + i := by omega
      rw [hidx]
      refine ((hrest b' d hd).append_left _).trans ?_
      rw [← List.append_assoc, ← List.append_assoc]
      exact List.perm_append_comm.append_right _

/-- One slot of one block overwritten: all other records stay. -/
theorem fileEntries_set {i j : ℕ} {file : IndexFile} {b : IndexDiskBlock} {d0 : DREC}
    (hb : file[i]? = some b) (hd0 : b.slots[j]? = some d0) :
    ∃ rest, (fileEntries 0 file).Perm (entry (i, j) d0 ++ rest)
      ∧ ∀ (b' : IndexDiskBlock) d, b'.slots = b.slots.set j d →
        (fileEntries 0 (file.set i b')).Perm (entry (i, j) d ++ rest) := by
  obtain ⟨hj, hd⟩ := List.getElem?_eq_some_iff.mp hd0
  obtain ⟨hi, hbi⟩ := List.getElem?_eq_some_iff.mp hb
  obtain ⟨rest, hrest⟩ := fileEntries_set_from (k := 0) hb hj
  rw [Nat.zero_add] at hrest
  refine ⟨rest, ?_, hrest⟩
  have hself := hrest b d0 (by rw [← hd, List.set_getElem_self])
  rw [← hbi, List.set_getElem_self] at hself
  exact hself

theorem fileEntries_append (k : ℕ) (file : IndexFile) (b : IndexDiskBlock) :
    fileEntries k (file ++ [b])
      = fileEntries k file ++ entriesFrom (k + file.length) 0 b.slots := by
  induction file generalizing k with
  | nil =>
    rw [List.nil_append, fileEntries, fileEntries, fileEntries, List.append_nil, List.nil_append]
    rfl
  | cons c file ih =>
    rw [List.cons_append, fileEntries, fileEntries, ih (k + 1), List.append_assoc,
      List.length_cons]
    have hidx : k + (file.length + 1) = k + 1 + file.length := by omega
    rw [hidx]

theorem entriesFrom_replicate_zero (n k m : ℕ) :
    entriesFrom n k (List.replicate m DREC.zero) = [] := by
  induction m generalizing k with
  | zero => rfl
  | succ m ih =>
    rw [List.replicate_succ, entriesFrom_cons, entry_empty _ DREC.isEmpty_zero, List.nil_append]
    exact ih (k + 1)

end IndexBlock

/-! ## Empty slots -/

/-- How many slots of a block are empty. -/
def IndexDiskBlock.emptySlots (b : IndexDiskBlock) : ℕ := b.slots.countP DREC.isEmpty

theorem IndexDiskBlock.emptySlots_le (b : IndexDiskBlock) : b.emptySlots ≤ slotsPerBlock := by
  rw [← b.size_eq]
  exact List.countP_le_length

/-- The empty slots after one is overwritten. -/
theorem IndexDiskBlock.emptySlots_setSlot {b : IndexDiskBlock} {j : ℕ} {d0 : DREC} (d : DREC)
    (h : b.slots[j]? = some d0) :
    (b.setSlot j d).emptySlots + (if d0.isEmpty then 1 else 0)
      = b.emptySlots + if d.isEmpty then 1 else 0 := by
  obtain ⟨hj, rfl⟩ := List.getElem?_eq_some_iff.mp h
  have hset : (b.setSlot j d).emptySlots = b.slots.countP DREC.isEmpty
      - (if b.slots[j].isEmpty then 1 else 0) + if d.isEmpty then 1 else 0 :=
    List.countP_set hj
  have hpos : b.slots[j].isEmpty = true → 0 < b.slots.countP DREC.isEmpty := fun he =>
    List.countP_pos_iff.mpr ⟨_, List.getElem_mem hj, he⟩
  rw [hset, emptySlots]
  by_cases he : b.slots[j].isEmpty = true
  · have := hpos he
    rw [if_pos he]
    omega
  · rw [if_neg he]
    omega

/-- `GetEmptyDREC` finds a slot if there is one. -/
theorem IndexDiskBlock.GetEmptyDREC_spec {b : IndexDiskBlock} (h : 0 < b.emptySlots) :
    ∃ j d, b.GetEmptyDREC = some j ∧ j < slotsPerBlock ∧ b.slots[j]? = some d
      ∧ d.isEmpty = true := by
  obtain ⟨d, hd, he⟩ := List.countP_pos_iff.mp h
  rcases hf : b.GetEmptyDREC with _ | j
  · have hnone := List.findIdx?_eq_none_iff.mp hf d hd
    rw [he] at hnone
    cases hnone
  · obtain ⟨hj, hje, -⟩ := List.findIdx?_eq_some_iff_getElem.mp hf
    refine ⟨j, b.slots[j], rfl, ?_, List.getElem?_eq_getElem hj, hje⟩
    rw [← b.size_eq]
    exact hj

theorem slotAt_slotOffset {j : ℕ} (h : j < slotsPerBlock) : slotAt (slotOffset j) = some j := by
  have hj : j < 186 := h
  rw [slotAt, if_pos]
  · rw [slotOffset]
    show some ((((22 * j : ℕ) : Int) / ((22 : ℕ) : Int)).toNat) = some j
    congr 1
    omega
  · rw [slotOffset]
    show 0 ≤ ((22 * j : ℕ) : Int) ∧ ((22 * j : ℕ) : Int) ≤ ((4070 : ℕ) : Int)
      ∧ ((22 * j : ℕ) : Int) % ((22 : ℕ) : Int) = 0
    omega

/-- An offset with a slot is the offset of that slot. -/
theorem slotAt_eq_some {offset : Int} {j : ℕ} (h : slotAt offset = some j) :
    offset = slotOffset j ∧ j < slotsPerBlock := by
  rw [slotAt] at h
  by_cases hc : 0 ≤ offset ∧ offset ≤ IMAX_RECORD_POS ∧ offset % sizeofDREC = 0
  · rw [if_pos hc, Option.some.injEq] at h
    have hc' : 0 ≤ offset ∧ offset ≤ ((4070 : ℕ) : Int) ∧ offset % ((22 : ℕ) : Int) = 0 := hc
    have hj : (offset / ((22 : ℕ) : Int)).toNat = j := h
    refine ⟨?_, ?_⟩
    · show offset = ((22 * j : ℕ) : Int)
      omega
    · show j < 186
      omega
  · rw [if_neg hc] at h
    cases h

theorem slotOffset_ne {j : ℕ} : slotOffset j ≠ -1 := by
  rw [slotOffset]
  omega

theorem slotOffset_injective {i j : ℕ} (h : slotOffset i = slotOffset j) : i = j := by
  have h' : ((22 * i : ℕ) : Int) = ((22 * j : ℕ) : Int) := h
  omega

/-- The slot of an entry, if it has one. -/
def RecordIndex.slot (r : RecordIndex) : Option (ℕ × ℕ) :=
  (slotAt r.m_IB_recordOffset).map fun j => (r.m_IB_blockNumber, j)

theorem RecordIndex.slot_eq_some {r : RecordIndex} {n j : ℕ} (h : r.slot = some (n, j)) :
    r.m_IB_blockNumber = n ∧ r.m_IB_recordOffset = slotOffset j := by
  obtain ⟨j', hj, heq⟩ := Option.map_eq_some_iff.mp h
  cases heq
  exact ⟨rfl, (slotAt_eq_some hj).1⟩

theorem RecordIndex.slot_of_offset {r : RecordIndex} {n j : ℕ} (hj : j < slotsPerBlock)
    (hnum : r.m_IB_blockNumber = n) (hoff : r.m_IB_recordOffset = slotOffset j) :
    r.slot = some (n, j) := by
  rw [slot, hoff, slotAt_slotOffset hj, hnum]
  rfl

theorem RecordIndex.slot_unwritten {r : RecordIndex} (hoff : r.m_IB_recordOffset = -1) :
    r.slot = none := by
  rw [slot, hoff]
  rfl

/-- The record of an entry in its slot. -/
def RecordIndex.slotEntry (x : UInt64) (r : RecordIndex) : List ((ℕ × ℕ) × DREC) :=
  match r.slot with
  | some slot => [(slot, r.toDREC x)]
  | none => []

theorem RecordIndex.slotEntry_eq {x : UInt64} {r : RecordIndex} {slot : ℕ × ℕ}
    (h : r.slot = some slot) : r.slotEntry x = [(slot, r.toDREC x)] := by
  rw [slotEntry, h]

/-- One block makes the difference between two index files. -/
def IndexFile.WroteBlock (file : IndexFile) (n : ℕ) (file' : IndexFile) : Prop :=
  ∃ b, file'[n]? = some b ∧ file' = file.putBlock n b

/-- A file does not shrink, and grows by one block at most. -/
theorem IndexFile.WroteBlock.length {file file' : IndexFile} {n : ℕ} (h : file.WroteBlock n file') :
    file.length ≤ file'.length ∧ file'.length ≤ file.length + 1 := by
  obtain ⟨b, -, rfl⟩ := h
  rw [putBlock]
  by_cases hn : n < file.length
  · rw [if_pos hn, List.length_set]
    omega
  · rw [if_neg hn, List.length_append]
    exact ⟨Nat.le_add_right _ _, Nat.le_refl _⟩

theorem IndexFile.wroteBlock_set {file : IndexFile} {n : ℕ} (b : IndexDiskBlock)
    (h : n < file.length) : file.WroteBlock n (file.set n b) :=
  ⟨b, List.getElem?_set_self h, (if_pos h).symm⟩

theorem IndexFile.wroteBlock_append (file : IndexFile) (b : IndexDiskBlock) :
    file.WroteBlock file.length (file ++ [b]) :=
  ⟨b, List.getElem?_concat_length, (if_neg (Nat.lt_irrefl _)).symm⟩

namespace IndexBlock

/-- The members of `IndexBlock` fit the file. -/
structure Inv (ib : IndexBlock) (file : IndexFile) : Prop where
  small : file.length ≤ 2 ^ 20
  count : ib.m_blockCount = file.length
  amount : ∀ b ∈ file, b.m_amountOfFreeSpace = sizeofDREC * b.emptySlots
  free : ∀ n, n ∈ ib.m_freeBlocks ↔ ∃ b, file[n]? = some b ∧ 0 < b.emptySlots
  cache : ∀ n b, ib.m_rDiskBlockCache.lookup n = some b → file[n]? = some b
  lru : ∃ l, ib.m_pLRUCache.IsList l
    ∧ ∀ x, x ∈ l ↔ ∃ n, n ∈ ib.m_rDiskBlockCache ∧ x = UInt64.ofNat n

theorem diskPosition_eq {n : ℕ} (h : n < 2 ^ 20) : diskPosition n = INDEX_BLOCK_SIZE * n := by
  rw [diskPosition, INDEX_BLOCK_SIZE, Nat.mod_eq_of_lt]
  omega

theorem readBlock_eq {file : IndexFile} {n : ℕ} (h : n < 2 ^ 20) :
    IndexFile.readBlock file (diskPosition n) = file[n]? := by
  rw [IndexFile.readBlock, diskPosition_eq h, Nat.mul_div_cancel_left _ (by decide)]

theorem writeBlock_eq {file : IndexFile} {n : ℕ} (b : IndexDiskBlock) (h : n < 2 ^ 20)
    (hn : n < file.length) :
    IndexFile.writeBlock file (diskPosition n) b = some (file.set n b) := by
  rw [IndexFile.writeBlock, diskPosition_eq h, Nat.mul_div_cancel_left _ (by decide), if_pos hn]

theorem toNat_ofNat_block {n : ℕ} (h : n < 2 ^ 32) : (UInt64.ofNat n).toNat = n :=
  UInt64.toNat_ofNat_of_lt' (Nat.lt_of_lt_of_le h (by decide))

/-- Numbers of blocks stay apart as keys of the LRU. -/
theorem ofNat_inj {n k : ℕ} (hn : n < 2 ^ 32) (hk : k < 2 ^ 32)
    (h : UInt64.ofNat n = UInt64.ofNat k) : n = k := by
  have hmod : (UInt64.ofNat n).toNat = (UInt64.ofNat k).toNat := by rw [h]
  rw [toNat_ofNat_block hn, toNat_ofNat_block hk] at hmod
  exact hmod

/-- The LRU lists the numbers of the blocks of a cache. -/
def Tracks (lru : LRUCache) (cache : AList fun _ : ℕ => IndexDiskBlock) : Prop :=
  ∃ l, lru.IsList l ∧ ∀ x, x ∈ l ↔ ∃ n, n ∈ cache ∧ x = UInt64.ofNat n

namespace Tracks

variable {lru : LRUCache} {cache cache' : AList fun _ : ℕ => IndexDiskBlock}

theorem congr (h : Tracks lru cache) (hmem : ∀ n, n ∈ cache' ↔ n ∈ cache) :
    Tracks lru cache' := by
  obtain ⟨l, hl, hl'⟩ := h
  refine ⟨l, hl, fun x => (hl' x).trans ?_⟩
  simp only [hmem]

/-- The LRU after `put` knows one block more. -/
theorem put (h : Tracks lru cache) (n : ℕ) (b : IndexDiskBlock) :
    ∃ lru', lru.put (UInt64.ofNat n) = some lru' ∧ Tracks lru' (cache.insert n b) := by
  obtain ⟨l, hl, hmem⟩ := h
  obtain ⟨lru', hput, hlru⟩ := hl.put (UInt64.ofNat n)
  refine ⟨lru', hput, _, hlru, fun x => ?_⟩
  rw [List.mem_append, List.mem_singleton, hl.nodup.mem_erase_iff, hmem]
  constructor
  · rintro (⟨-, k, hk, rfl⟩ | rfl)
    · exact ⟨k, (AList.mem_insert _).mpr (Or.inr hk), rfl⟩
    · exact ⟨n, (AList.mem_insert _).mpr (Or.inl rfl), rfl⟩
  · rintro ⟨k, hk, rfl⟩
    by_cases hx : UInt64.ofNat k = UInt64.ofNat n
    · exact Or.inr hx
    · rcases (AList.mem_insert _).mp hk with rfl | hk
      · exact absurd rfl hx
      · exact Or.inl ⟨hx, k, hk, rfl⟩

/-- A store into a cached block. -/
theorem store (h : Tracks lru cache) {n : ℕ} (hn : n ∈ cache) (b : IndexDiskBlock) :
    Tracks lru (cache.insert n b) := by
  refine h.congr fun k => (AList.mem_insert _).trans ?_
  refine or_iff_right_of_imp ?_
  rintro rfl
  exact hn

/-- `put` of a block that is cached. -/
theorem put_again (h : Tracks lru cache) {n : ℕ} (hn : n ∈ cache) :
    ∃ lru', lru.put (UInt64.ofNat n) = some lru' ∧ Tracks lru' cache := by
  obtain ⟨b, -⟩ := Option.isSome_iff_exists.mp (AList.lookup_isSome.mpr hn)
  obtain ⟨lru', hput, hlru⟩ := h.put n b
  refine ⟨lru', hput, hlru.congr fun k => ((AList.mem_insert _).trans ?_).symm⟩
  refine or_iff_right_of_imp ?_
  rintro rfl
  exact hn

end Tracks

/-- The eviction takes one block out of the cache and of the LRU, if one is cached. -/
theorem evict_spec {ib : IndexBlock} (h : Tracks ib.m_pLRUCache ib.m_rDiskBlockCache)
    (hlt : ∀ n ∈ ib.m_rDiskBlockCache, n < 2 ^ 32) :
    ib.evict = some ib ∧ (∀ n, n ∉ ib.m_rDiskBlockCache)
      ∨ ∃ k lru, k ∈ ib.m_rDiskBlockCache ∧ Tracks lru (ib.m_rDiskBlockCache.erase k)
        ∧ ib.evict = some { ib with
            m_rDiskBlockCache := ib.m_rDiskBlockCache.erase k, m_pLRUCache := lru } := by
  obtain ⟨l, hl, hmem⟩ := h
  rw [IndexBlock.evict, hl.get]
  rcases l with _ | ⟨x, l⟩
  · refine Or.inl ⟨rfl, fun n hn => ?_⟩
    have hnil := (hmem (UInt64.ofNat n)).mpr ⟨n, hn, rfl⟩
    cases hnil
  obtain ⟨lru, hrem, hlru⟩ := hl.remove x
  obtain ⟨k, hk, rfl⟩ := (hmem x).mp List.mem_cons_self
  have hkmod : (UInt64.ofNat k).toNat % 2 ^ 32 = k := by
    rw [toNat_ofNat_block (hlt k hk), Nat.mod_eq_of_lt (hlt k hk)]
  refine Or.inr ⟨k, lru, hk, ⟨_, hlru, fun y => ?_⟩, ?_⟩
  · rw [hl.nodup.mem_erase_iff, hmem]
    constructor
    · rintro ⟨hne, n, hn, rfl⟩
      refine ⟨n, AList.mem_erase.mpr ⟨?_, hn⟩, rfl⟩
      rintro rfl
      exact hne rfl
    · rintro ⟨n, hn, rfl⟩
      obtain ⟨hne, hn⟩ := AList.mem_erase.mp hn
      exact ⟨fun heq => hne (ofNat_inj (hlt n hn) (hlt k hk) heq), n, hn, rfl⟩
  · simp only [List.head?_cons, Option.bind_eq_bind, Option.bind_some, hrem, hkmod]
    rfl

theorem firstFree_none {ib : IndexBlock} (hf : ib.firstFree = none) : ib.m_freeBlocks = ∅ := by
  rw [firstFree] at hf
  by_cases hne : ib.m_freeBlocks.Nonempty
  · rw [dif_pos hne] at hf
    cases hf
  · exact Finset.not_nonempty_iff_eq_empty.mp hne

namespace Inv

variable {ib : IndexBlock} {file : IndexFile}

theorem cached_lt (h : ib.Inv file) {n : ℕ} (hn : n ∈ ib.m_rDiskBlockCache) :
    n < file.length := by
  obtain ⟨b, hb⟩ := Option.isSome_iff_exists.mp (AList.lookup_isSome.mpr hn)
  exact (List.getElem?_eq_some_iff.mp (h.cache n b hb)).1

theorem cached_small (h : ib.Inv file) : ∀ n ∈ ib.m_rDiskBlockCache, n < 2 ^ 32 := by
  intro n hn
  have hlt := h.cached_lt hn
  have hsmall := h.small
  omega

/-- The eviction keeps the invariant. -/
theorem evict (h : ib.Inv file) :
    ∃ ib', ib.evict = some ib' ∧ ib'.Inv file ∧ ib'.m_blockCount = ib.m_blockCount
      ∧ ib'.m_freeBlocks = ib.m_freeBlocks := by
  rcases evict_spec h.lru h.cached_small with ⟨hev, -⟩ | ⟨k, lru, -, hlru, hev⟩
  · exact ⟨ib, hev, h, rfl, rfl⟩
  · refine ⟨_, hev, ⟨h.small, h.count, h.amount, h.free, ?_, hlru⟩, rfl, rfl⟩
    intro n b hb
    by_cases hn : n = k
    · rw [hn, AList.lookup_erase] at hb
      cases hb
    · rw [AList.lookup_erase_ne hn] at hb
      exact h.cache n b hb

/-- `GetCachedDiskBlock` returns the block of the file, and leaves it cached. -/
theorem GetCachedDiskBlock (h : ib.Inv file) (cacheSize : ℕ) {n : ℕ} {b : IndexDiskBlock}
    (hb : file[n]? = some b) :
    ∃ ib', ib.GetCachedDiskBlock cacheSize file (diskPosition n) n = some (b, ib')
      ∧ ib'.Inv file ∧ ib'.m_blockCount = ib.m_blockCount
      ∧ ib'.m_freeBlocks = ib.m_freeBlocks
      ∧ n ∈ ib'.m_rDiskBlockCache := by
  have hn : n < 2 ^ 20 := Nat.lt_of_lt_of_le (List.getElem?_eq_some_iff.mp hb).1 h.small
  rw [IndexBlock.GetCachedDiskBlock]
  rcases hc : ib.m_rDiskBlockCache.lookup n with _ | c
  · have hnc : n ∉ ib.m_rDiskBlockCache := AList.lookup_eq_none.mp hc
    -- whether or not a block is evicted first
    obtain ⟨s1, hs1, h1, hcount1, hfree1⟩ : ∃ s1 : IndexBlock,
        (cacheSize < ib.m_rDiskBlockCache.entries.length * INDEX_BLOCK_SIZE ∧ ib.evict = some s1
          ∨ ¬ cacheSize < ib.m_rDiskBlockCache.entries.length * INDEX_BLOCK_SIZE ∧ s1 = ib)
        ∧ s1.Inv file ∧ s1.m_blockCount = ib.m_blockCount
        ∧ s1.m_freeBlocks = ib.m_freeBlocks := by
      by_cases hfull : cacheSize < ib.m_rDiskBlockCache.entries.length * INDEX_BLOCK_SIZE
      · obtain ⟨s1, he, h1, hcount1, hfree1⟩ := h.evict
        exact ⟨s1, Or.inl ⟨hfull, he⟩, h1, hcount1, hfree1⟩
      · exact ⟨ib, Or.inr ⟨hfull, rfl⟩, h, rfl, rfl⟩
    obtain ⟨lru, hput, hlru⟩ := Tracks.put h1.lru n b
    refine ⟨{ s1 with m_rDiskBlockCache := s1.m_rDiskBlockCache.insert n b, m_pLRUCache := lru }, ?_,
      ⟨h1.small, h1.count, h1.amount, h1.free, ?_, hlru⟩, hcount1, hfree1, ?_⟩
    · rcases hs1 with ⟨hfull, he⟩ | ⟨hfull, rfl⟩
      · simp only [if_pos hfull, he, Option.bind_eq_bind, Option.bind_some, readBlock_eq hn, hb, hput]
        rfl
      · simp only [if_neg hfull, Option.bind_eq_bind, Option.bind_some, readBlock_eq hn, hb, hput]
        rfl
    · intro k c hk
      by_cases hkn : k = n
      · rw [hkn, AList.lookup_insert] at hk
        rw [hkn, ← hk]
        exact hb
      · rw [AList.lookup_insert_ne hkn] at hk
        exact h1.cache k c hk
    · exact (AList.mem_insert _).mpr (Or.inl rfl)
  · have hcb : c = b := Option.some.inj ((h.cache n c hc).symm.trans hb)
    have hmem : n ∈ ib.m_rDiskBlockCache := AList.lookup_isSome.mp (by rw [hc]; rfl)
    obtain ⟨lru, hput, hlru⟩ := Tracks.put_again h.lru hmem
    refine ⟨{ ib with m_pLRUCache := lru }, ?_,
      ⟨h.small, h.count, h.amount, h.free, h.cache, hlru⟩, rfl, rfl, hmem⟩
    simp only [hput, Option.bind_eq_bind, Option.bind_some, hcb]
    rfl

/-- A cached block changed in the cache and written to the file. -/
theorem write_through (h : ib.Inv file) {n : ℕ} {b b' : IndexDiskBlock} {free : Finset ℕ}
    (hb : file[n]? = some b) (hn : n ∈ ib.m_rDiskBlockCache)
    (hamount : b'.m_amountOfFreeSpace = sizeofDREC * b'.emptySlots)
    (hself : n ∈ free ↔ 0 < b'.emptySlots)
    (hfree : ∀ k, k ≠ n → (k ∈ free ↔ k ∈ ib.m_freeBlocks)) :
    Inv { ib.store n b' with m_freeBlocks := free } (file.set n b') := by
  have hlt : n < file.length := (List.getElem?_eq_some_iff.mp hb).1
  have hget : (file.set n b')[n]? = some b' := List.getElem?_set_self hlt
  refine ⟨?_, ?_, ?_, ?_, ?_, ?_⟩
  · rw [List.length_set]
    exact h.small
  · rw [List.length_set]
    exact h.count
  · intro c hc
    rcases List.mem_or_eq_of_mem_set hc with hc | rfl
    · exact h.amount c hc
    · exact hamount
  · intro k
    by_cases hk : k = n
    · rw [hk, hget]
      refine hself.trans ⟨fun hpos => ⟨b', rfl, hpos⟩, ?_⟩
      rintro ⟨c, hc, hpos⟩
      cases hc
      exact hpos
    · rw [List.getElem?_set_ne (Ne.symm hk)]
      exact (hfree k hk).trans (h.free k)
  · intro k c hc
    have hc' : (ib.m_rDiskBlockCache.insert n b').lookup k = some c := hc
    by_cases hk : k = n
    · rw [hk, AList.lookup_insert] at hc'
      rw [hk, hget, hc']
    · rw [AList.lookup_insert_ne hk] at hc'
      rw [List.getElem?_set_ne (Ne.symm hk)]
      exact h.cache k c hc'
  · exact Tracks.store h.lru hn b'

/-- The block of a record of the file. -/
theorem exists_block (h : ib.Inv file) {n j : ℕ} {d : DREC} (hmem : ((n, j), d) ∈ fileEntries 0 file) :
    ∃ b, file[n]? = some b ∧ b.slots[j]? = some d ∧ d.isEmpty = false ∧ j < slotsPerBlock
      ∧ n < file.length ∧ n < 2 ^ 20 ∧ b.m_amountOfFreeSpace = sizeofDREC * b.emptySlots := by
  obtain ⟨b, hb, hd, hne⟩ := mem_fileEntries.mp hmem
  obtain ⟨hn, hbn⟩ := List.getElem?_eq_some_iff.mp hb
  have hj : j < b.slots.length := (List.getElem?_eq_some_iff.mp hd).1
  rw [b.size_eq] at hj
  exact ⟨b, hb, hd, hne, hj, hn, Nat.lt_of_lt_of_le hn h.small, h.amount b (List.mem_of_getElem? hb)⟩

/-- `WriteRecordIndexToDisk` of an entry that has a slot replaces its record. -/
theorem rewrite (h : ib.Inv file) (cacheSize : ℕ) (x : UInt64) {r : RecordIndex} {n j : ℕ}
    {d : DREC} (hmem : ((n, j), d) ∈ fileEntries 0 file) (hnum : r.m_IB_blockNumber = n)
    (hoff : r.m_IB_recordOffset = slotOffset j) (hcount : 1 ≤ r.m_blockCount) (fuel : ℕ) :
    ∃ ib' file' rest, WriteRecordIndexToDisk cacheSize x r (fuel + 1) ib file = some (ib', file', r)
      ∧ ib'.Inv file' ∧ file.WroteBlock n file'
      ∧ (fileEntries 0 file).Perm (((n, j), d) :: rest)
      ∧ (fileEntries 0 file').Perm (((n, j), r.toDREC x) :: rest) := by
  obtain ⟨b, hb, hd, hne, hj, hn, hn20, hamount⟩ := h.exists_block hmem
  obtain ⟨ib1, hget, h1, -, hfree1, hn1⟩ := h.GetCachedDiskBlock cacheSize hb
  obtain ⟨rest, hperm, hset⟩ := fileEntries_set hb hd
  have hfull : (r.toDREC x).isEmpty = false := DREC.isEmpty_of_blockCount hcount
  have hslots : (b.setSlot j (r.toDREC x)).emptySlots = b.emptySlots := by
    have hcnt := IndexDiskBlock.emptySlots_setSlot (r.toDREC x) hd
    rw [hne, hfull] at hcnt
    exact hcnt
  rw [entry_full _ hne] at hperm
  have hset' := hset (b.setSlot j (r.toDREC x)) (r.toDREC x) rfl
  rw [entry_full _ hfull] at hset'
  refine ⟨ib1.store n (b.setSlot j (r.toDREC x)), file.set n (b.setSlot j (r.toDREC x)), rest, ?_,
    ?_, IndexFile.wroteBlock_set _ hn, hperm, hset'⟩
  · have hoff' : r.m_IB_recordOffset ≠ -1 := by
      rw [hoff]
      exact slotOffset_ne
    rw [WriteRecordIndexToDisk, if_pos hoff']
    simp only [rewriteRecord, hnum, hoff, hget, slotAt_slotOffset hj, writeBlock_eq _ hn20 hn,
      Option.bind_eq_bind, Option.bind_some, Option.pure_def]
  · have hkeep : ∀ k, k ≠ n → (k ∈ ib1.m_freeBlocks ↔ k ∈ ib1.m_freeBlocks) :=
      fun _ _ => Iff.rfl
    refine h1.write_through hb hn1 ?_ ?_ hkeep
    · rw [hslots]
      exact hamount
    · rw [hslots, h1.free]
      constructor
      · rintro ⟨c, hc, hpos⟩
        rw [hb] at hc
        cases hc
        exact hpos
      · intro hpos
        exact ⟨b, hb, hpos⟩

/-- `EraseRecord` takes the record out of the file. -/
theorem erase (h : ib.Inv file) (cacheSize : ℕ) {n j : ℕ} {d : DREC}
    (hmem : ((n, j), d) ∈ fileEntries 0 file) :
    ∃ ib' file' rest, ib.EraseRecord cacheSize file n (slotOffset j) = some (ib', file')
      ∧ ib'.Inv file' ∧ file.WroteBlock n file'
      ∧ (fileEntries 0 file).Perm (((n, j), d) :: rest) ∧ (fileEntries 0 file').Perm rest := by
  obtain ⟨b, hb, hd, hne, hj, hn, hn20, hamount⟩ := h.exists_block hmem
  obtain ⟨ib1, hget, h1, -, hfree1, hn1⟩ := h.GetCachedDiskBlock cacheSize hb
  obtain ⟨rest, hperm, hset⟩ := fileEntries_set hb hd
  have hslots : (b.setSlot j DREC.zero).emptySlots = b.emptySlots + 1 := by
    have hcnt := IndexDiskBlock.emptySlots_setSlot DREC.zero hd
    rw [hne, DREC.isEmpty_zero] at hcnt
    exact hcnt
  rw [entry_full _ hne] at hperm
  -- the block with its free bytes counted
  obtain ⟨b', hb'⟩ : ∃ b' : IndexDiskBlock, b' = { b.setSlot j DREC.zero with
      m_amountOfFreeSpace := u16 (b.m_amountOfFreeSpace + sizeofDREC) } := ⟨_, rfl⟩
  have hslots' : b'.emptySlots = b.emptySlots + 1 := by
    rw [hb']
    exact hslots
  have hset' := hset b' DREC.zero (by rw [hb']; rfl)
  rw [entry_empty _ DREC.isEmpty_zero, List.nil_append] at hset'
  refine ⟨{ ib1.store n b' with m_freeBlocks := insert n ib1.m_freeBlocks }, file.set n b', rest, ?_,
    ?_, IndexFile.wroteBlock_set _ hn, hperm, hset'⟩
  · simp only [EraseRecord, if_neg slotOffset_ne, hget, slotAt_slotOffset hj, ← hb',
      writeBlock_eq _ hn20 hn, Option.bind_eq_bind, Option.bind_some]
    rfl
  · refine h1.write_through hb hn1 ?_ ?_ ?_
    · have hle := b.emptySlots_le
      have hsum : b'.m_amountOfFreeSpace = u16 ((22 * b.emptySlots : ℕ) + (22 : ℕ)) := by
        rw [hb', ← sizeofDREC, ← hamount]
      rw [hslots', hsum, u16, sizeofDREC]
      have hle' : b.emptySlots ≤ 186 := hle
      omega
    · rw [hslots']
      exact iff_of_true (Finset.mem_insert_self _ _) (Nat.succ_pos _)
    · intro k hk
      rw [Finset.mem_insert, or_iff_right hk]

theorem firstFree_some (h : ib.Inv file) {n : ℕ} (hf : ib.firstFree = some n) :
    ∃ b, file[n]? = some b ∧ 0 < b.emptySlots := by
  rw [firstFree] at hf
  by_cases hne : ib.m_freeBlocks.Nonempty
  · rw [dif_pos hne, Option.some.injEq] at hf
    refine (h.free n).mp ?_
    rw [← hf]
    exact Finset.min'_mem _ _
  · rw [dif_neg hne] at hf
    cases hf

/-- `WriteRecordIndexToDisk` of an entry without a slot adds a record in a slot
that was empty, or in a block it appends. -/
theorem write_new (h : ib.Inv file) (hlt : file.length < 2 ^ 20) (cacheSize : ℕ) (x : UInt64)
    {r : RecordIndex} (hoff : r.m_IB_recordOffset = -1) (hcount : 1 ≤ r.m_blockCount)
    (fuel : ℕ) :
    ∃ ib' file' n j, WriteRecordIndexToDisk cacheSize x r (fuel + 1) ib file
        = some (ib', file', { r with m_IB_blockNumber := n, m_IB_recordOffset := slotOffset j })
      ∧ j < slotsPerBlock ∧ ib'.Inv file' ∧ file.WroteBlock n file'
      ∧ (fileEntries 0 file').Perm (((n, j), r.toDREC x) :: fileEntries 0 file) := by
  have hfull : (r.toDREC x).isEmpty = false := DREC.isEmpty_of_blockCount hcount
  have hnot : ¬ r.m_IB_recordOffset ≠ -1 := fun hne => hne hoff
  rw [WriteRecordIndexToDisk, if_neg hnot]
  rcases hf : ib.firstFree with _ | n
  · -- a new block at the end
    have hempty := firstFree_none hf
    obtain ⟨b', hb'⟩ : ∃ b' : IndexDiskBlock, b' = { IndexDiskBlock.zero.setSlot 0 (r.toDREC x) with
        m_amountOfFreeSpace := INDEX_BLOCK_SIZE - sizeofDREC - sizeofICIDF } := ⟨_, rfl⟩
    have hslots : b'.emptySlots = 185 := by
      have hfirst : IndexDiskBlock.zero.slots[0]? = some DREC.zero := rfl
      have hcnt := IndexDiskBlock.emptySlots_setSlot (r.toDREC x) hfirst
      have hzero : IndexDiskBlock.zero.emptySlots = 186 := by
        rw [IndexDiskBlock.emptySlots, IndexDiskBlock.zero]
        exact List.countP_replicate
      rw [hfull, hzero, DREC.isEmpty_zero] at hcnt
      rw [hb']
      exact Nat.succ_injective hcnt
    have hnew : ib.m_blockCount ∉ ib.m_rDiskBlockCache := by
      intro hmem
      have hlt' := h.cached_lt hmem
      rw [h.count] at hlt'
      exact absurd hlt' (Nat.lt_irrefl _)
    obtain ⟨lru, hput, hlru⟩ := Tracks.put h.lru ib.m_blockCount b'
    refine ⟨{ m_blockCount := (ib.m_blockCount + 1) % 2 ^ 32
              m_freeBlocks := insert ib.m_blockCount ib.m_freeBlocks
              m_rDiskBlockCache := ib.m_rDiskBlockCache.insert ib.m_blockCount b'
              m_pLRUCache := lru }, file ++ [b'], ib.m_blockCount, 0, ?_, by decide,
      ⟨?_, ?_, ?_, ?_, ?_, hlru⟩, ?_, ?_⟩
    · simp only [appendBlock, ← hb', hput, if_neg hnew, Option.bind_eq_bind, Option.bind_some]
      rfl
    · rw [List.length_append]
      exact hlt
    · show (ib.m_blockCount + 1) % 2 ^ 32 = _
      rw [h.count, List.length_append, Nat.mod_eq_of_lt (by omega)]
      rfl
    · intro c hc
      rcases List.mem_append.mp hc with hc | hc
      · exact h.amount c hc
      · rw [List.mem_singleton.mp hc, hslots, hb']
        rfl
    · intro k
      show k ∈ insert ib.m_blockCount ib.m_freeBlocks ↔ _
      have hfree := h.free k
      rw [Finset.mem_insert, h.count]
      rw [hempty] at hfree ⊢
      by_cases hk : k < file.length
      · rw [List.getElem?_append_left hk, ← hfree]
        exact or_iff_right (Nat.ne_of_lt hk)
      · constructor
        · rintro (rfl | hk')
          · exact ⟨b', List.getElem?_concat_length, by rw [hslots]; decide⟩
          · exact absurd hk' (Finset.notMem_empty k)
        · rintro ⟨c, hc, -⟩
          have hlen := (List.getElem?_eq_some_iff.mp hc).1
          rw [List.length_append, List.length_singleton] at hlen
          omega
    · intro k c hk
      have hk' : (ib.m_rDiskBlockCache.insert ib.m_blockCount b').lookup k = some c := hk
      by_cases hkn : k = ib.m_blockCount
      · rw [hkn, AList.lookup_insert] at hk'
        rw [hkn, h.count, ← hk']
        exact List.getElem?_concat_length
      · rw [AList.lookup_insert_ne hkn] at hk'
        have hc := h.cache k c hk'
        rw [List.getElem?_append_left (List.getElem?_eq_some_iff.mp hc).1]
        exact hc
    · rw [h.count]
      exact IndexFile.wroteBlock_append file b'
    · rw [fileEntries_append, Nat.zero_add, ← h.count, hb']
      have hblock : entriesFrom ib.m_blockCount 0
          ((IndexDiskBlock.zero.setSlot 0 (r.toDREC x)).slots)
          = [((ib.m_blockCount, 0), r.toDREC x)] := by
        show entriesFrom ib.m_blockCount 0 ((List.replicate (185 + 1) DREC.zero).set 0 (r.toDREC x)) = _
        rw [List.replicate_succ, List.set_cons_zero, entriesFrom_cons, entry_full _ hfull,
          entriesFrom_replicate_zero, List.append_nil]
      rw [hblock]
      exact List.perm_append_comm
  · -- an empty slot of a block that has one
    obtain ⟨b, hb, hpos⟩ := h.firstFree_some hf
    have hn : n < file.length := (List.getElem?_eq_some_iff.mp hb).1
    have hn20 : n < 2 ^ 20 := Nat.lt_of_lt_of_le hn h.small
    have hamount := h.amount b (List.mem_of_getElem? hb)
    obtain ⟨ib1, hget, h1, -, hfree1, hn1⟩ := h.GetCachedDiskBlock cacheSize hb
    obtain ⟨j, d0, hj, hjlt, hd0, hempty⟩ := b.GetEmptyDREC_spec hpos
    obtain ⟨rest, hperm, hset⟩ := fileEntries_set hb hd0
    rw [entry_empty _ hempty, List.nil_append] at hperm
    have hslots : (b.setSlot j (r.toDREC x)).emptySlots + 1 = b.emptySlots := by
      have hcnt := IndexDiskBlock.emptySlots_setSlot (r.toDREC x) hd0
      rw [hempty, hfull] at hcnt
      exact hcnt
    obtain ⟨b', hb'⟩ : ∃ b' : IndexDiskBlock, b' = { b.setSlot j (r.toDREC x) with
        m_amountOfFreeSpace := u16 (b.m_amountOfFreeSpace - sizeofDREC) } := ⟨_, rfl⟩
    have hslots' : b'.emptySlots + 1 = b.emptySlots := by
      rw [hb']
      exact hslots
    have hamount' : b'.m_amountOfFreeSpace = sizeofDREC * b'.emptySlots := by
      have hle : b.emptySlots ≤ 186 := b.emptySlots_le
      have hsum : b'.m_amountOfFreeSpace = u16 ((22 * b.emptySlots : ℕ) - (22 : ℕ)) := by
        rw [hb', ← sizeofDREC, ← hamount]
      rw [hsum, u16, sizeofDREC]
      omega
    have hset' := hset b' (r.toDREC x) (by rw [hb']; rfl)
    rw [entry_full _ hfull] at hset'
    refine ⟨{ ib1.store n b' with m_freeBlocks :=
        if b'.m_amountOfFreeSpace < sizeofDREC then ib1.m_freeBlocks.erase n
        else ib1.m_freeBlocks }, file.set n b', n, j, ?_, hjlt, ?_, ?_, ?_⟩
    · have hfield : u16 (b.m_amountOfFreeSpace - sizeofDREC) = b'.m_amountOfFreeSpace := by rw [hb']
      simp only [hget, hj, ← hb', writeBlock_eq _ hn20 hn, Option.bind_eq_bind, Option.bind_some]
      rw [hfield]
      rfl
    · refine h1.write_through hb hn1 hamount' ?_ ?_
      · rw [hamount', sizeofDREC]
        have hmem : n ∈ ib1.m_freeBlocks := (h1.free n).mpr ⟨b, hb, hpos⟩
        by_cases hzero : 22 * b'.emptySlots < 22
        · rw [if_pos hzero]
          refine iff_of_false (Finset.notMem_erase n _) ?_
          omega
        · rw [if_neg hzero]
          refine iff_of_true hmem ?_
          omega
      · intro k hk
        by_cases hzero : b'.m_amountOfFreeSpace < sizeofDREC
        · rw [if_pos hzero, Finset.mem_erase, and_iff_right hk]
        · rw [if_neg hzero]
    · exact IndexFile.wroteBlock_set b' hn
    · exact hset'.trans (hperm.symm.cons _)

end Inv

/-- The entry comes back with a slot, and is otherwise as it was. -/
theorem WriteRecordIndexToDisk_entry {cacheSize : ℕ} {x : UInt64} {r r' : RecordIndex} (fuel : ℕ) :
    ∀ {ib ib' : IndexBlock} {file file' : IndexFile},
      WriteRecordIndexToDisk cacheSize x r fuel ib file = some (ib', file', r') →
      ∃ offset number, r' = { r with m_IB_recordOffset := offset, m_IB_blockNumber := number } := by
  induction fuel with
  | zero =>
    intro ib ib' file file' h
    cases h
  | succ fuel ih =>
    intro ib ib' file file' h
    rw [WriteRecordIndexToDisk] at h
    by_cases hoff : r.m_IB_recordOffset ≠ -1
    · rw [if_pos hoff] at h
      obtain ⟨w, -, h⟩ := Option.bind_eq_some_iff.mp h
      cases h
      exact ⟨_, _, rfl⟩
    rw [if_neg hoff] at h
    cases hf : ib.firstFree with
    | none =>
      rw [hf] at h
      obtain ⟨w, -, h⟩ := Option.bind_eq_some_iff.mp h
      cases h
      exact ⟨_, _, rfl⟩
    | some n =>
      rw [hf] at h
      obtain ⟨⟨b, ib1⟩, -, h⟩ := Option.bind_eq_some_iff.mp h
      dsimp only at h
      cases hj : b.GetEmptyDREC with
      | none =>
        rw [hj] at h
        exact ih h
      | some j =>
        rw [hj] at h
        obtain ⟨w, -, h⟩ := Option.bind_eq_some_iff.mp h
        cases h
        exact ⟨_, _, rfl⟩

/-! ## The length of the file -/

theorem writeBlock_length {file file' : IndexFile} {position : ℕ} {b : IndexDiskBlock}
    (h : IndexFile.writeBlock file position b = some file') : file'.length = file.length := by
  rw [IndexFile.writeBlock] at h
  split at h
  · cases h
    exact List.length_set
  · cases h

/-- The file does not get shorter. -/
theorem WriteRecordIndexToDisk_length {cacheSize : ℕ} {x : UInt64} {r r' : RecordIndex}
    (fuel : ℕ) :
    ∀ {ib ib' : IndexBlock} {file file' : IndexFile},
      WriteRecordIndexToDisk cacheSize x r fuel ib file = some (ib', file', r') →
      file.length ≤ file'.length := by
  induction fuel with
  | zero =>
    intro ib ib' file file' h
    cases h
  | succ fuel ih =>
    intro ib ib' file file' h
    rw [WriteRecordIndexToDisk] at h
    by_cases hoff : r.m_IB_recordOffset ≠ -1
    · rw [if_pos hoff] at h
      obtain ⟨⟨ib1, file1⟩, hw, h⟩ := Option.bind_eq_some_iff.mp h
      cases h
      obtain ⟨⟨b, ib2⟩, -, hw⟩ := Option.bind_eq_some_iff.mp hw
      obtain ⟨j, -, hw⟩ := Option.bind_eq_some_iff.mp hw
      obtain ⟨file2, hwrite, hw⟩ := Option.bind_eq_some_iff.mp hw
      cases hw
      rw [writeBlock_length hwrite]
    rw [if_neg hoff] at h
    cases hf : ib.firstFree with
    | none =>
      rw [hf] at h
      obtain ⟨⟨ib1, file1⟩, hw, h⟩ := Option.bind_eq_some_iff.mp h
      cases h
      obtain ⟨lru, -, hw⟩ := Option.bind_eq_some_iff.mp hw
      cases hw
      rw [List.length_append]
      exact Nat.le_add_right _ _
    | some n =>
      rw [hf] at h
      obtain ⟨⟨b, ib1⟩, -, h⟩ := Option.bind_eq_some_iff.mp h
      dsimp only at h
      cases hj : b.GetEmptyDREC with
      | none =>
        rw [hj] at h
        exact ih h
      | some j =>
        rw [hj] at h
        obtain ⟨file2, hwrite, h⟩ := Option.bind_eq_some_iff.mp h
        cases h
        rw [writeBlock_length hwrite]

theorem EraseRecord_length {cacheSize blockNumber : ℕ} {recordOffset : Int} {ib ib' : IndexBlock}
    {file file' : IndexFile}
    (h : ib.EraseRecord cacheSize file blockNumber recordOffset = some (ib', file')) :
    file'.length = file.length := by
  rw [EraseRecord] at h
  split at h
  · cases h
    rfl
  · obtain ⟨⟨b, ib1⟩, -, h⟩ := Option.bind_eq_some_iff.mp h
    obtain ⟨j, -, h⟩ := Option.bind_eq_some_iff.mp h
    obtain ⟨file2, hwrite, h⟩ := Option.bind_eq_some_iff.mp h
    cases h
    exact writeBlock_length hwrite

/-! ## Loading -/

theorem mem_freeFrom {k n : ℕ} {file : IndexFile} :
    n ∈ freeFrom k file ↔
      k ≤ n ∧ ∃ b, file[n - k]? = some b ∧ sizeofDREC ≤ b.m_amountOfFreeSpace := by
  induction file generalizing k with
  | nil =>
    constructor
    · intro h
      exact absurd h (Finset.notMem_empty n)
    · rintro ⟨-, b, h, -⟩
      cases h
  | cons b bs ih =>
    have hrest : n ∈ freeFrom (k + 1) bs ↔
        k < n ∧ ∃ c, (b :: bs)[n - k]? = some c ∧ sizeofDREC ≤ c.m_amountOfFreeSpace := by
      rw [ih]
      refine and_congr_right fun hk => ?_
      have hidx : n - k = n - (k + 1) + 1 := by omega
      rw [hidx, List.getElem?_cons_succ]
    have hhead : (∃ c, (b :: bs)[k - k]? = some c ∧ sizeofDREC ≤ c.m_amountOfFreeSpace)
        ↔ sizeofDREC ≤ b.m_amountOfFreeSpace := by
      rw [Nat.sub_self, List.getElem?_cons_zero]
      constructor
      · rintro ⟨c, hc, hle⟩
        cases hc
        exact hle
      · intro hle
        exact ⟨b, rfl, hle⟩
    rw [freeFrom]
    by_cases hb : sizeofDREC ≤ b.m_amountOfFreeSpace
    · rw [if_pos hb, Finset.mem_insert, hrest]
      constructor
      · rintro (rfl | ⟨hk, hc⟩)
        · exact ⟨Nat.le_refl _, hhead.mpr hb⟩
        · exact ⟨by omega, hc⟩
      · rintro ⟨hk, hc⟩
        by_cases heq : n = k
        · exact Or.inl heq
        · exact Or.inr ⟨by omega, hc⟩
    · rw [if_neg hb, hrest]
      refine ⟨fun ⟨hk, hc⟩ => ⟨by omega, hc⟩, fun ⟨hk, hc⟩ => ⟨?_, hc⟩⟩
      by_contra hle
      have heq : n = k := by omega
      rw [heq] at hc
      exact hb (hhead.mp hc)

/-- The counters of the file are right. -/
def Counted (file : IndexFile) : Prop :=
  file.length ≤ 2 ^ 20 ∧ ∀ b ∈ file, b.m_amountOfFreeSpace = sizeofDREC * b.emptySlots

theorem Inv.counted {ib : IndexBlock} {file : IndexFile} (h : ib.Inv file) : Counted file :=
  ⟨h.small, h.amount⟩

theorem Counted.mem_freeFrom {file : IndexFile} (h : Counted file) {n : ℕ} :
    n ∈ freeFrom 0 file ↔ ∃ b, file[n]? = some b ∧ 0 < b.emptySlots := by
  rw [IndexBlock.mem_freeFrom, and_iff_right (Nat.zero_le n), Nat.sub_zero]
  refine exists_congr fun b => and_congr_right fun hb => ?_
  rw [h.2 b (List.mem_of_getElem? hb), sizeofDREC]
  omega

variable {file : IndexFile} {order : List ((ℕ × ℕ) × DREC)} {fs : FreeSpaceBlockMap} {size : Int}

/-- What `Init` does to the members. -/
theorem Init_self (ib : IndexBlock) (m : Option RecordIndexMap) :
    (ib.Init file order m fs size).2.1 = { ib with
      m_blockCount := if file = [] then ib.m_blockCount else file.length % 2 ^ 32
      m_freeBlocks := if m.isSome then ib.m_freeBlocks ∪ freeFrom 0 file else ib.m_freeBlocks } := by
  rw [Init]
  split
  split
  · rfl
  · rfl

theorem Init_map (ib : IndexBlock) (m : Option RecordIndexMap) :
    (ib.Init file order m fs size).2.2.1 = m.map (fillMap order) := by
  rw [Init]
  split
  split
  · rfl
  · rfl

/-- `Init` of a new `IndexBlock`. -/
theorem Init_inv (h : Counted file) (m : RecordIndexMap) :
    Inv (new.Init file order (some m) fs size).2.1 file := by
  rw [Init_self]
  refine ⟨h.1, ?_, h.2, ?_, ?_, [], LRUCache.IsList.empty, ?_⟩
  · show (if file = [] then 0 else file.length % 2 ^ 32) = _
    have hsmall := h.1
    by_cases hnil : file = []
    · rw [if_pos hnil, hnil]
      rfl
    · rw [if_neg hnil, Nat.mod_eq_of_lt (by omega)]
  · intro n
    show n ∈ ∅ ∪ freeFrom 0 file ↔ _
    rw [Finset.empty_union]
    exact h.mem_freeFrom
  · intro n b hb
    cases hb
  · intro x
    constructor
    · intro hx
      cases hx
    · rintro ⟨n, hn, -⟩
      exact absurd hn (AList.notMem_empty n)

/-- `Init` without a map changes nothing but the free space. -/
theorem Inv.Init_none {ib : IndexBlock} (h : ib.Inv file) :
    (ib.Init file order none fs size).2.1 = ib := by
  have hcount : (if file = [] then ib.m_blockCount else file.length % 2 ^ 32) = ib.m_blockCount := by
    by_cases hnil : file = []
    · rw [if_pos hnil]
    · have hsmall := h.small
      rw [if_neg hnil, Nat.mod_eq_of_lt (by omega), h.count]
  rw [Init_self, hcount]
  rfl

/-- The free space `Init` finds over records whose regions do not overlap. -/
theorem Init_freeSpace {ib : IndexBlock} {m : Option RecordIndexMap}
    (horder : order.Perm (fileEntries 0 file)) (hsize : 0 ≤ size)
    (hpos : ∀ e ∈ fileEntries 0 file, 0 < e.2.region.len)
    (hin : ∀ e ∈ fileEntries 0 file, 0 ≤ e.2.region.pos ∧ e.2.region.stop ≤ size)
    (hap : ((fileEntries 0 file).map fun e => e.2.region).Pairwise Region.Apart) :
    (ib.Init file order m fs size).1 = .ok
      ∧ (ib.Init file order m fs size).2.2.1 = m.map (fillMap order)
      ∧ FreeSpaceBlockMap.NoEmptyBucket (ib.Init file order m fs size).2.2.2
      ∧ Region.Tiles 0 size (FreeSpaceBlockMap.regions (ib.Init file order m fs size).2.2.2
          ++ (fileEntries 0 file).map fun e => e.2.region)
      ∧ (FreeSpaceBlockMap.regions (ib.Init file order m fs size).2.2.2).Pairwise Region.Clear := by
  have hpos' : ∀ d ∈ order.map toIndexDef, 0 < d.m_dataLen := by
    intro d hd
    obtain ⟨e, he, rfl⟩ := List.mem_map.mp hd
    exact hpos e (horder.mem_iff.mp he)
  have hin' : ∀ d ∈ order.map toIndexDef, 0 ≤ d.region.pos ∧ d.region.stop ≤ size := by
    intro d hd
    obtain ⟨e, he, rfl⟩ := List.mem_map.mp hd
    exact hin e (horder.mem_iff.mp he)
  have hap' : ((order.map toIndexDef).map IndexDef.region).Pairwise Region.Apart := by
    rw [List.map_map]
    exact (horder.map _).symm.pairwise hap fun h => h.symm
  obtain ⟨fs', hload, hne, htiles, hclear⟩ :=
    FreeSpaceBlockMap.LoadFreeSpaceFromIndexDef_spec hsize hpos' hin' hap'
  rw [Init, hload]
  refine ⟨rfl, rfl, hne, htiles.perm (List.Perm.append_left _ ?_), hclear⟩
  rw [List.map_map]
  exact horder.map _

/-- The map `FillIndex` builds holds the record that comes first for each key. -/
theorem lookup_fillMap {x : UInt64} {r : RecordIndex} (m : RecordIndexMap)
    (hkeys : (order.map fun e => e.2.m_key).Nodup) :
    (fillMap order m).lookup x = some r ↔ m.lookup x = some r
      ∨ x ∉ m ∧ ∃ e ∈ order, e.2.m_key = x ∧ loadedIndex e.1 e.2 = r := by
  induction order generalizing m with
  | nil =>
    refine ⟨Or.inl, ?_⟩
    rintro (h | ⟨-, e, he, -⟩)
    · exact h
    · cases he
  | cons e es ih =>
    rw [List.map_cons, List.nodup_cons] at hkeys
    have hstep : fillMap (e :: es) m
        = fillMap es (if e.2.m_key ∈ m then m else m.insert e.2.m_key (loadedIndex e.1 e.2)) := rfl
    have hfresh : ∀ f ∈ es, f.2.m_key ≠ e.2.m_key := fun f hf heq =>
      hkeys.1 (List.mem_map.mpr ⟨f, hf, heq⟩)
    rw [hstep, ih _ hkeys.2]
    by_cases hmem : e.2.m_key ∈ m
    · rw [if_pos hmem]
      refine or_congr_right (and_congr_right fun hx => ?_)
      constructor
      · rintro ⟨f, hf, h⟩
        exact ⟨f, List.mem_cons_of_mem _ hf, h⟩
      · rintro ⟨f, hf, rfl, h⟩
        rcases List.mem_cons.mp hf with rfl | hf
        · exact absurd hmem hx
        · exact ⟨f, hf, rfl, h⟩
    · rw [if_neg hmem]
      by_cases hx : x = e.2.m_key
      · subst hx
        rw [AList.lookup_insert]
        constructor
        · rintro (h | ⟨hn, -⟩)
          · exact Or.inr ⟨hmem, e, List.mem_cons_self, rfl, Option.some.inj h⟩
          · exact absurd ((AList.mem_insert _).mpr (Or.inl rfl)) hn
        · rintro (h | ⟨-, f, hf, hkey, h⟩)
          · rw [AList.lookup_eq_none.mpr hmem] at h
            cases h
          · rcases List.mem_cons.mp hf with rfl | hf
            · exact Or.inl (congrArg some h)
            · exact absurd hkey (hfresh f hf)
      · rw [AList.lookup_insert_ne hx]
        refine or_congr_right ?_
        rw [AList.mem_insert, not_or, and_iff_right hx]
        refine and_congr_right fun _ => ?_
        constructor
        · rintro ⟨f, hf, h⟩
          exact ⟨f, List.mem_cons_of_mem _ hf, h⟩
        · rintro ⟨f, hf, hkey, h⟩
          rcases List.mem_cons.mp hf with rfl | hf
          · exact absurd hkey.symm hx
          · exact ⟨f, hf, hkey, h⟩

end IndexBlock

end TransDB
