/-
Where the blocks of the index file are.

Block `n` of the index file begins at byte `4096 * n`: `FillIndex` and `FillXKeys` walk over
the file in steps of 4096, a new block is written at the end, and the functions that change a
record seek to the place they compute for its block. All of them but the append compute it
as the product of a `uint16` constant and a `uint32` number, which is a `uint32`. From block
`2 ^ 20` on it starts again from the beginning of the file.
-/
import TransDB.IndexBlockSpec

set_option autoImplicit false

namespace TransDB

namespace IndexBlock

/-! ## Parsing the file -/

/-- `m_pData + INDEX_BLOCK_SIZE * i`, where `FillIndex` and `FillXKeys` look for block `i`. -/
def parsedBlock (m_pData : IndexFile) (i : ℕ) : Option IndexDiskBlock :=
  m_pData.readBlock (diskPosition i)

/-- `FillIndex` on one block: its records with their slots. -/
def FillIndex (m_pData : IndexFile) (i : ℕ) : Option (List ((ℕ × ℕ) × DREC)) :=
  (parsedBlock m_pData i).map fun pBlock => entriesFrom i 0 pBlock.slots

/-- `FillXKeys` on one block: the keys of its records. -/
def FillXKeys (m_pData : IndexFile) (i : ℕ) : Option (List UInt64) :=
  (parsedBlock m_pData i).map fun pBlock =>
    (pBlock.slots.filter fun pDREC => !pDREC.isEmpty).map DREC.m_key

/-- The records of the file, as `FillIndex` comes to them block by block. -/
theorem fillIndex_eq {file : IndexFile} (h : file.length ≤ 2 ^ 20) :
    (List.range file.length).flatMap (fun i => (FillIndex file i).getD []) = fileEntries 0 file := by
  have hpart : ∀ (k : ℕ) (bs : IndexFile), fileEntries k bs = (List.range bs.length).flatMap
      fun i => (bs[i]?.map fun b => entriesFrom (k + i) 0 b.slots).getD [] := by
    intro k bs
    induction bs generalizing k with
    | nil => rfl
    | cons b bs ih =>
      rw [fileEntries, ih (k + 1), List.length_cons, List.range_succ_eq_map, List.flatMap_cons,
        List.flatMap_map]
      refine congrArg _ (List.flatMap_congr fun i _ => ?_)
      rw [List.getElem?_cons_succ, Nat.add_assoc, Nat.add_comm 1 i]
  rw [hpart 0 file]
  refine List.flatMap_congr fun i hi => ?_
  have hlt : i < 2 ^ 20 := Nat.lt_of_lt_of_le (List.mem_range.mp hi) h
  rw [FillIndex, parsedBlock, readBlock_eq hlt, Nat.zero_add]

/-! ## The places -/

/-- Block `n` is at byte `4096 * n` for everything that computes its place: what is not in
the cache is read from there, the paths that change a record write there, and it is what
`FillIndex` and `FillXKeys` parse. -/
structure OwnPlace (n : ℕ) : Prop where
  offset : diskPosition n = INDEX_BLOCK_SIZE * n
  cached : ∀ cacheSize (self self' : IndexBlock) (file : IndexFile) (b : IndexDiskBlock),
    self.m_rDiskBlockCache.lookup n = none →
    self.GetCachedDiskBlock cacheSize file (diskPosition n) n = some (b, self') →
    file[n]? = some b
  rewrite : ∀ cacheSize (self self' : IndexBlock) (file file' : IndexFile) recordOffset d,
    self.rewriteRecord cacheSize file n recordOffset d = some (self', file') →
    ∃ b, file' = file.set n b
  freeBlock : ∀ cacheSize x (r r' : RecordIndex) fuel (self self0 self' : IndexBlock)
    (file file' : IndexFile) (b0 : IndexDiskBlock), r.m_IB_recordOffset = -1 →
    self.firstFree = some n →
    self.GetCachedDiskBlock cacheSize file (diskPosition n) n = some (b0, self0) →
    b0.GetEmptyDREC ≠ none →
    WriteRecordIndexToDisk cacheSize x r (fuel + 1) self file = some (self', file', r') →
    ∃ b, file' = file.set n b
  erase : ∀ cacheSize (self self' : IndexBlock) (file file' : IndexFile) recordOffset,
    recordOffset ≠ -1 → self.EraseRecord cacheSize file n recordOffset = some (self', file') →
    ∃ b, file' = file.set n b
  fillIndex : ∀ file : IndexFile,
    FillIndex file n = file[n]?.map fun b => entriesFrom n 0 b.slots
  fillXKeys : ∀ file : IndexFile, FillXKeys file n = file[n]?.map fun b =>
    (b.slots.filter fun pDREC => !pDREC.isEmpty).map DREC.m_key

variable {n : ℕ}

theorem readBlock_of_offset (h : diskPosition n = INDEX_BLOCK_SIZE * n) (file : IndexFile) :
    file.readBlock (diskPosition n) = file[n]? := by
  rw [IndexFile.readBlock, h, Nat.mul_div_cancel_left _ (by decide)]

theorem writeBlock_of_offset (h : diskPosition n = INDEX_BLOCK_SIZE * n) {file file' : IndexFile}
    {b : IndexDiskBlock} (hw : file.writeBlock (diskPosition n) b = some file') :
    file' = file.set n b := by
  rw [IndexFile.writeBlock, h, Nat.mul_div_cancel_left _ (by decide)] at hw
  split at hw
  · exact (Option.some.inj hw).symm
  · cases hw

theorem GetCachedDiskBlock_miss {cacheSize : ℕ} {self self' : IndexBlock} {file : IndexFile}
    {pos : ℕ} {b : IndexDiskBlock} (hmiss : self.m_rDiskBlockCache.lookup n = none)
    (h : self.GetCachedDiskBlock cacheSize file pos n = some (b, self')) :
    file.readBlock pos = some b := by
  rw [GetCachedDiskBlock, hmiss] at h
  dsimp only at h
  -- whether or not a block is evicted first
  obtain ⟨self1, h⟩ : ∃ self1 : IndexBlock, ((file.readBlock pos).bind fun b =>
      (self1.m_pLRUCache.put (UInt64.ofNat n)).bind fun lru => some (b, { self1 with
        m_rDiskBlockCache := self1.m_rDiskBlockCache.insert n b, m_pLRUCache := lru }))
        = some (b, self') := by
    split at h
    · obtain ⟨self1, -, h⟩ := Option.bind_eq_some_iff.mp h
      exact ⟨self1, h⟩
    · exact ⟨self, h⟩
  obtain ⟨b', hread, h⟩ := Option.bind_eq_some_iff.mp h
  obtain ⟨lru, -, h⟩ := Option.bind_eq_some_iff.mp h
  cases h
  exact hread

theorem rewriteRecord_writes {cacheSize : ℕ} {self self' : IndexBlock} {file file' : IndexFile}
    {recordOffset : Int} {d : DREC}
    (h : self.rewriteRecord cacheSize file n recordOffset d = some (self', file')) :
    ∃ b, file.writeBlock (diskPosition n) b = some file' := by
  obtain ⟨⟨b0, self0⟩, -, h⟩ := Option.bind_eq_some_iff.mp h
  obtain ⟨j, -, h⟩ := Option.bind_eq_some_iff.mp h
  obtain ⟨file1, hw, h⟩ := Option.bind_eq_some_iff.mp h
  cases h
  exact ⟨_, hw⟩

theorem EraseRecord_writes {cacheSize : ℕ} {self self' : IndexBlock} {file file' : IndexFile}
    {recordOffset : Int} (hslot : recordOffset ≠ -1)
    (h : self.EraseRecord cacheSize file n recordOffset = some (self', file')) :
    ∃ b, file.writeBlock (diskPosition n) b = some file' := by
  rw [EraseRecord, if_neg hslot] at h
  obtain ⟨⟨b0, self0⟩, -, h⟩ := Option.bind_eq_some_iff.mp h
  obtain ⟨j, -, h⟩ := Option.bind_eq_some_iff.mp h
  obtain ⟨file1, hw, h⟩ := Option.bind_eq_some_iff.mp h
  cases h
  exact ⟨_, hw⟩

theorem WriteRecordIndexToDisk_writes {cacheSize fuel : ℕ} {x : UInt64} {r r' : RecordIndex}
    {self self0 self' : IndexBlock} {file file' : IndexFile} {b0 : IndexDiskBlock}
    (hslot : r.m_IB_recordOffset = -1) (hfree : self.firstFree = some n)
    (hcached : self.GetCachedDiskBlock cacheSize file (diskPosition n) n = some (b0, self0))
    (hempty : b0.GetEmptyDREC ≠ none)
    (h : WriteRecordIndexToDisk cacheSize x r (fuel + 1) self file = some (self', file', r')) :
    ∃ b, file.writeBlock (diskPosition n) b = some file' := by
  rw [WriteRecordIndexToDisk] at h
  dsimp only at h
  rw [if_neg (by rw [hslot]; decide), hfree] at h
  dsimp only at h
  rw [hcached, Option.bind_eq_bind, Option.bind_some] at h
  dsimp only at h
  cases hj : b0.GetEmptyDREC with
  | none => exact absurd hj hempty
  | some j =>
    rw [hj] at h
    obtain ⟨file1, hw, h⟩ := Option.bind_eq_some_iff.mp h
    cases h
    exact ⟨_, hw⟩

theorem OwnPlace.of_offset (h : diskPosition n = INDEX_BLOCK_SIZE * n) : OwnPlace n where
  offset := h
  cached cacheSize self self' file b hmiss hget := by
    rw [← readBlock_of_offset h]
    exact GetCachedDiskBlock_miss hmiss hget
  rewrite cacheSize self self' file file' recordOffset d hrewrite := by
    obtain ⟨b, hw⟩ := rewriteRecord_writes hrewrite
    exact ⟨b, writeBlock_of_offset h hw⟩
  freeBlock cacheSize x r r' fuel self self0 self' file file' b0 hslot hfree hcached hempty hwrite := by
    obtain ⟨b, hw⟩ := WriteRecordIndexToDisk_writes hslot hfree hcached hempty hwrite
    exact ⟨b, writeBlock_of_offset h hw⟩
  erase cacheSize self self' file file' recordOffset hslot herase := by
    obtain ⟨b, hw⟩ := EraseRecord_writes hslot herase
    exact ⟨b, writeBlock_of_offset h hw⟩
  fillIndex file := by rw [FillIndex, parsedBlock, readBlock_of_offset h]
  fillXKeys file := by rw [FillXKeys, parsedBlock, readBlock_of_offset h]

/-- The product fits into a `uint32` up to block `2 ^ 20`. -/
theorem diskPosition_eq_iff (n : ℕ) : diskPosition n = INDEX_BLOCK_SIZE * n ↔ n < 2 ^ 20 := by
  rw [diskPosition, INDEX_BLOCK_SIZE]
  omega

theorem diskPosition_inj_iff (n k : ℕ) :
    diskPosition n = diskPosition k ↔ n % 2 ^ 20 = k % 2 ^ 20 := by
  rw [diskPosition, diskPosition, INDEX_BLOCK_SIZE]
  omega

/-- A block is at its place if and only if it is one of the first `2 ^ 20`, and two blocks are
read and written at one place if and only if their numbers differ by a multiple of it. -/
theorem index_block_place_iff (n k : UInt32) :
    (OwnPlace n.toNat ↔ n.toNat < 2 ^ 20)
      ∧ (diskPosition n.toNat = diskPosition k.toNat
        ↔ n.toNat % 2 ^ 20 = k.toNat % 2 ^ 20) := by
  refine ⟨?_, diskPosition_inj_iff _ _⟩
  rw [← diskPosition_eq_iff]
  exact ⟨fun h => h.offset, OwnPlace.of_offset⟩

/-- Block `2 ^ 20` of a file that has it is taken for block 0: its one X is not found. -/
theorem index_block_place_wraps : ∃ file : IndexFile,
    (file[2 ^ 20]?.map fun b => (b.slots.filter fun d => !d.isEmpty).map DREC.m_key) = some [7]
      ∧ FillXKeys file (2 ^ 20) = some [] ∧ diskPosition (2 ^ 20) = diskPosition 0
      ∧ ¬ OwnPlace (2 ^ 20) := by
  refine ⟨List.replicate (2 ^ 20) IndexDiskBlock.zero
    ++ [IndexDiskBlock.zero.setSlot 0 ⟨7, 4096, 1, 1⟩], ?_, ?_, by decide, fun h => ?_⟩
  · rw [List.getElem?_append_right (by rw [List.length_replicate]), List.length_replicate,
      Nat.sub_self]
    decide
  · have hpos : diskPosition (2 ^ 20) / INDEX_BLOCK_SIZE = 0 := by decide
    rw [FillXKeys, parsedBlock, IndexFile.readBlock, hpos,
      List.getElem?_append_left (by rw [List.length_replicate]; decide),
      List.getElem?_replicate_of_lt (by decide)]
    decide
  · exact absurd ((diskPosition_eq_iff _).mp h.offset) (by decide)

end IndexBlock

end TransDB
