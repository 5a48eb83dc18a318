/-
`IndexBlock.cpp`: the index file, the cache of its blocks, and the entries of the
main index.

An index block is an array of disk records (`DREC`, 22 bytes) and a counter of its
free bytes; 186 records and the control field fill its 4096 bytes exactly, so the
array is kept as a list of 186 records and a byte offset into it is 22 times a
slot number. The file is the list of its blocks. A pointer that
`GetCachedDiskBlock` returns points into the cache, so what is stored through it
is stored in the cached block.

`m_location` of the control field is never read and is left out.
-/
import TransDB.BlockManager
import TransDB.FreeSpace
import TransDB.LRUCache
import Mathlib.Data.Finset.Max

set_option autoImplicit false

namespace TransDB

/-- `sizeof(DREC)`, packed. -/
def sizeofDREC : ℕ := 22

/-- `INDEX_BLOCK_SIZE` -/
def INDEX_BLOCK_SIZE : ℕ := 4096

/-- `sizeof(ICIDF)`, packed. -/
def sizeofICIDF : ℕ := 4

/-- `IMAX_RECORD_POS`: the last position of a record. -/
def IMAX_RECORD_POS : ℕ := INDEX_BLOCK_SIZE - sizeofICIDF - sizeofDREC

/-- The number of records at positions up to `IMAX_RECORD_POS`. -/
def slotsPerBlock : ℕ := IMAX_RECORD_POS / sizeofDREC + 1

/-- `DREC` -/
structure DREC where
  m_key : UInt64
  m_recordStart : Int
  m_crc32 : UInt32
  m_blockCount : ℕ
  deriving DecidableEq, Repr

/-- A record of zeroes. -/
def DREC.zero : DREC := ⟨0, 0, 0, 0⟩

/-- `IndexBlock::IsEmptyDREC` -/
def DREC.isEmpty (d : DREC) : Bool :=
  d.m_key = 0 ∧ d.m_recordStart = 0 ∧ d.m_blockCount = 0 ∧ d.m_crc32 = 0

/-- The region of the data file a record describes. -/
def DREC.region (d : DREC) : Region := ⟨d.m_recordStart, d.m_blockCount * BLOCK_SIZE⟩

/-- A block of the index file. -/
structure IndexDiskBlock where
  slots : List DREC
  m_amountOfFreeSpace : ℕ
  size_eq : slots.length = slotsPerBlock
  deriving DecidableEq

namespace IndexDiskBlock

/-- `memset` of a whole block. -/
def zero : IndexDiskBlock where
  slots := List.replicate slotsPerBlock DREC.zero
  m_amountOfFreeSpace := 0
  size_eq := List.length_replicate

/-- A record stored in a slot. -/
def setSlot (b : IndexDiskBlock) (j : ℕ) (d : DREC) : IndexDiskBlock where
  slots := b.slots.set j d
  m_amountOfFreeSpace := b.m_amountOfFreeSpace
  size_eq := by rw [List.length_set, b.size_eq]

/-- `IndexBlock::GetEmptyDREC`: the slot of the first empty record. -/
def GetEmptyDREC (b : IndexDiskBlock) : Option ℕ := b.slots.findIdx? DREC.isEmpty

end IndexDiskBlock

/-- `m_IB_recordOffset` of a slot. -/
def slotOffset (j : ℕ) : Int := (sizeofDREC * j : ℕ)

/-- The slot at an offset, if there is one. -/
def slotAt (offset : Int) : Option ℕ :=
  if 0 ≤ offset ∧ offset ≤ IMAX_RECORD_POS ∧ offset % sizeofDREC = 0 then
    some (offset / sizeofDREC).toNat
  else none

/-- `RecordIndex`. The three bits of `m_flags` are the last three fields. -/
structure RecordIndex where
  m_recordStart : Int
  m_pBlockManager : Option Blman
  m_blockCount : ℕ
  m_IB_recordOffset : Int
  m_IB_blockNumber : ℕ
  m_crc32 : UInt32
  /-- `eRIF_RelocateBlocks` -/
  relocateBlocks : Bool
  /-- `eRIF_Dirty` -/
  dirty : Bool
  /-- `eRIF_InDiskWriteQueue` -/
  inDiskWriteQueue : Bool

/-- `RecordIndexMap` -/
abbrev RecordIndexMap := AList fun _ : UInt64 => RecordIndex

/-- The record `WriteRecordIndexToDisk` fills from an entry. -/
def RecordIndex.toDREC (r : RecordIndex) (x : UInt64) : DREC :=
  ⟨x, r.m_recordStart, r.m_crc32, r.m_blockCount⟩

/-- The region of the data file an entry owns. -/
def RecordIndex.region (r : RecordIndex) : Region :=
  ⟨r.m_recordStart, r.m_blockCount * BLOCK_SIZE⟩

/-- The index file. -/
abbrev IndexFile := List IndexDiskBlock

/-- The position computed for a block, as the `uint32` product it is. -/
def diskPosition (blockNumber : ℕ) : ℕ := INDEX_BLOCK_SIZE * blockNumber % 2 ^ 32

namespace IndexFile

/-- `fseek` and `fread` of a block. -/
def readBlock (file : IndexFile) (position : ℕ) : Option IndexDiskBlock :=
  file[position / INDEX_BLOCK_SIZE]?

/-- `fseek` and `fwrite` of a block the file has. -/
def writeBlock (file : IndexFile) (position : ℕ) (b : IndexDiskBlock) : Option IndexFile :=
  if position / INDEX_BLOCK_SIZE < file.length then some (file.set (position / INDEX_BLOCK_SIZE) b)
  else none

/-- The block at a number: replaced, or added at the end. -/
def putBlock (file : IndexFile) (blockNumber : ℕ) (b : IndexDiskBlock) : IndexFile :=
  if blockNumber < file.length then file.set blockNumber b else file ++ [b]

end IndexFile

/-- `IndexBlock` -/
structure IndexBlock where
  m_blockCount : ℕ
  m_freeBlocks : Finset ℕ
  m_rDiskBlockCache : AList fun _ : ℕ => IndexDiskBlock
  m_pLRUCache : LRUCache

namespace IndexBlock

/-- `IndexBlock::IndexBlock` -/
def new : IndexBlock where
  m_blockCount := 0
  m_freeBlocks := ∅
  m_rDiskBlockCache := ∅
  m_pLRUCache := LRUCache.empty

/-- `*m_freeBlocks.begin()`, if there is one. -/
def firstFree (self : IndexBlock) : Option ℕ :=
  if h : self.m_freeBlocks.Nonempty then some (self.m_freeBlocks.min' h) else none

/-- A store through a pointer into the cache. -/
def store (self : IndexBlock) (blockNumber : ℕ) (b : IndexDiskBlock) : IndexBlock :=
  { self with m_rDiskBlockCache := self.m_rDiskBlockCache.insert blockNumber b }

/-- The eviction in `GetCachedDiskBlock`: the oldest block leaves the cache. -/
def evict (self : IndexBlock) : Option IndexBlock := do
  let blockToDelete ← self.m_pLRUCache.get
  match blockToDelete with
  | none => some self
  | some blockToDelete =>
    let (_, lru) ← self.m_pLRUCache.remove blockToDelete
    return { self with
      m_rDiskBlockCache := self.m_rDiskBlockCache.erase (blockToDelete.toNat % 2 ^ 32)
      m_pLRUCache := lru }

/-- `IndexBlock::GetCachedDiskBlock`; `cacheSize` is `g_cfg.IndexBlockCacheSize`. -/
def GetCachedDiskBlock (cacheSize : ℕ) (self : IndexBlock) (hFile : IndexFile)
    (blockDiskPosition blockNumber : ℕ) : Option (IndexDiskBlock × IndexBlock) :=
  match self.m_rDiskBlockCache.lookup blockNumber with
  | some b => do
    let lru ← self.m_pLRUCache.put (UInt64.ofNat blockNumber)
    return (b, { self with m_pLRUCache := lru })
  | none => do
    --check cache and read block from disk
    let self ←
      if cacheSize < self.m_rDiskBlockCache.entries.length * INDEX_BLOCK_SIZE then self.evict
      else some self
    --read from disk
    let b ← IndexFile.readBlock hFile blockDiskPosition
    --add to cache
    let lru ← self.m_pLRUCache.put (UInt64.ofNat blockNumber)
    return (b, { self with
      m_rDiskBlockCache := self.m_rDiskBlockCache.insert blockNumber b
      m_pLRUCache := lru })

/-- The branch of `WriteRecordIndexToDisk` that rewrites a record in its slot. -/
def rewriteRecord (cacheSize : ℕ) (self : IndexBlock) (hFile : IndexFile) (blockNumber : ℕ)
    (recordOffset : Int) (rDiskRecord : DREC) : Option (IndexBlock × IndexFile) := do
  --get disk block
  let (pDiskBlock, self) ←
    self.GetCachedDiskBlock cacheSize hFile (diskPosition blockNumber) blockNumber
  --update record
  let j ← slotAt recordOffset
  let pDiskBlock := pDiskBlock.setSlot j rDiskRecord
  let self := self.store blockNumber pDiskBlock
  --update on disk
  let hFile ← IndexFile.writeBlock hFile (diskPosition blockNumber) pDiskBlock
  return (self, hFile)

/-- The branch that appends a block to the file. -/
def appendBlock (self : IndexBlock) (hFile : IndexFile) (rDiskRecord : DREC) :
    Option (IndexBlock × IndexFile) := do
  --create new block, add record
  let pDiskBlock := { IndexDiskBlock.zero.setSlot 0 rDiskRecord with
    m_amountOfFreeSpace := INDEX_BLOCK_SIZE - sizeofDREC - sizeofICIDF }
  --add to cache
  let lru ← self.m_pLRUCache.put (UInt64.ofNat self.m_blockCount)
  let self := { self with
    m_rDiskBlockCache :=
      if self.m_blockCount ∈ self.m_rDiskBlockCache then self.m_rDiskBlockCache
      else self.m_rDiskBlockCache.insert self.m_blockCount pDiskBlock
    m_pLRUCache := lru
    --add freeblock
    m_freeBlocks := insert self.m_blockCount self.m_freeBlocks
    --update block count
    m_blockCount := (self.m_blockCount + 1) % 2 ^ 32 }
  --write to disk - to the end
  return (self, hFile ++ [pDiskBlock])

/-- `IndexBlock::WriteRecordIndexToDisk`: the entry comes back with its slot. The
fuel is for the recursion that skips a block without an empty record. -/
def WriteRecordIndexToDisk (cacheSize : ℕ) (x : UInt64) (r : RecordIndex) :
    ℕ → IndexBlock → IndexFile → Option (IndexBlock × IndexFile × RecordIndex)
  | 0, _, _ => none
  | fuel + 1, self, hFile =>
    let rDiskRecord := r.toDREC x
    --x is existing rewrite
    if r.m_IB_recordOffset ≠ -1 then do
      let (self, hFile) ← self.rewriteRecord cacheSize hFile r.m_IB_blockNumber
        r.m_IB_recordOffset rDiskRecord
      return (self, hFile, r)
    else
      match self.firstFree with
      | none => do
        --we have no empty block
        let (self', hFile) ← self.appendBlock hFile rDiskRecord
        return (self', hFile,
          { r with m_IB_blockNumber := self.m_blockCount, m_IB_recordOffset := 0 })
      | some freeBlock => do
        --write to block with free space
        let (pDiskBlock, self) ←
          self.GetCachedDiskBlock cacheSize hFile (diskPosition freeBlock) freeBlock
        match pDiskBlock.GetEmptyDREC with
        | none =>
          --dirty fix erase from free blocks and write to another block
          WriteRecordIndexToDisk cacheSize x r fuel
            { self with m_freeBlocks := self.m_freeBlocks.erase freeBlock } hFile
        | some j => do
          --add record, update ICIDF
          let pDiskBlock := { pDiskBlock.setSlot j rDiskRecord with
            m_amountOfFreeSpace := u16 (pDiskBlock.m_amountOfFreeSpace - sizeofDREC) }
          let self := self.store freeBlock pDiskBlock
          --check free space
          let self := { self with
            m_freeBlocks :=
              if pDiskBlock.m_amountOfFreeSpace < sizeofDREC then self.m_freeBlocks.erase freeBlock
              else self.m_freeBlocks }
          --write to disk
          let hFile ← IndexFile.writeBlock hFile (diskPosition freeBlock) pDiskBlock
          return (self, hFile,
            { r with m_IB_blockNumber := freeBlock, m_IB_recordOffset := slotOffset j })

/-- `WriteRecordIndexToDisk` with fuel for every block it can skip. -/
def writeRecordIndex (cacheSize : ℕ) (self : IndexBlock) (hFile : IndexFile) (x : UInt64)
    (r : RecordIndex) : Option (IndexBlock × IndexFile × RecordIndex) :=
  WriteRecordIndexToDisk cacheSize x r (self.m_freeBlocks.card + 1) self hFile

/-- `IndexBlock::EraseRecord` -/
def EraseRecord (cacheSize : ℕ) (self : IndexBlock) (hFile : IndexFile) (blockNumber : ℕ)
    (recordOffset : Int) : Option (IndexBlock × IndexFile) :=
  --not written yet
  if recordOffset = -1 then some (self, hFile)
  else do
    --load block from disk
    let (pDiskBlock, self) ←
      self.GetCachedDiskBlock cacheSize hFile (diskPosition blockNumber) blockNumber
    --clear DREC, update ICIDF
    let j ← slotAt recordOffset
    let pDiskBlock := { pDiskBlock.setSlot j DREC.zero with
      m_amountOfFreeSpace := u16 (pDiskBlock.m_amountOfFreeSpace + sizeofDREC) }
    let self := self.store blockNumber pDiskBlock
    --block has freespace
    let self := { self with m_freeBlocks := insert blockNumber self.m_freeBlocks }
    --write to disk
    let hFile ← IndexFile.writeBlock hFile (diskPosition blockNumber) pDiskBlock
    return (self, hFile)

/-! ## Loading the file -/

/-- The records of one block with their slots, from slot `j` on, without the empty
ones: what the inner loop of `FillIndex` visits. -/
def entriesFrom (n : ℕ) : ℕ → List DREC → List ((ℕ × ℕ) × DREC)
  | _, [] => []
  | j, d :: ds => (if d.isEmpty then [] else [((n, j), d)]) ++ entriesFrom n (j + 1) ds

/-- The records of the blocks from number `n` on. -/
def fileEntries : ℕ → IndexFile → List ((ℕ × ℕ) × DREC)
  | _, [] => []
  | n, b :: bs => entriesFrom n 0 b.slots ++ fileEntries (n + 1) bs

/-- The `RecordIndex` of `FillIndex`. -/
def loadedIndex (slot : ℕ × ℕ) (d : DREC) : RecordIndex where
  m_recordStart := d.m_recordStart
  m_pBlockManager := none
  m_blockCount := d.m_blockCount
  m_IB_recordOffset := slotOffset slot.2
  m_IB_blockNumber := slot.1
  m_crc32 := d.m_crc32
  relocateBlocks := false
  dirty := false
  inDiskWriteQueue := false

/-- `m_pRecordIndexMap->insert` of the records in the order the parallel tasks
come to them; a key that is there stays. -/
def fillMap (order : List ((ℕ × ℕ) × DREC)) (m : RecordIndexMap) : RecordIndexMap :=
  order.foldl (fun m e =>
    if e.2.m_key ∈ m then m else m.insert e.2.m_key (loadedIndex e.1 e.2)) m

/-- `IndexDef` of a record. -/
def toIndexDef (e : (ℕ × ℕ) × DREC) : IndexDef :=
  ⟨e.2.m_key, e.2.m_recordStart, e.2.m_blockCount * BLOCK_SIZE⟩

/-- The blocks with room for a record, from number `n` on. -/
def freeFrom : ℕ → IndexFile → Finset ℕ
  | _, [] => ∅
  | n, b :: bs =>
    if sizeofDREC ≤ b.m_amountOfFreeSpace then insert n (freeFrom (n + 1) bs)
    else freeFrom (n + 1) bs

/-- `E_IIS`; allocation does not fail here. -/
inductive E_IIS
  | ok
  | freeSpaceCorrupted
  deriving DecidableEq, Repr

/-- `IndexBlock::Init`. `order` are the records of the file in the order the
parallel tasks come to them; without a `pRecordIndexMap` only the free space is
loaded. -/
def Init (self : IndexBlock) (hFile : IndexFile) (order : List ((ℕ × ℕ) × DREC))
    (pRecordIndexMap : Option RecordIndexMap) (rFreeSpace : FreeSpaceBlockMap)
    (dataFileSize : Int) : E_IIS × IndexBlock × Option RecordIndexMap × FreeSpaceBlockMap :=
  let self := { self with
    m_blockCount := if hFile = [] then self.m_blockCount else hFile.length % 2 ^ 32
    m_freeBlocks :=
      if pRecordIndexMap.isSome then self.m_freeBlocks ∪ freeFrom 0 hFile else self.m_freeBlocks }
  let pRecordIndexMap := pRecordIndexMap.map (fillMap order)
  --load free space from index def vector
  let (status, rFreeSpaceBlockMap) :=
    FreeSpaceBlockMap.LoadFreeSpaceFromIndexDef dataFileSize (order.map toIndexDef)
  if status then (.ok, self, pRecordIndexMap, rFreeSpaceBlockMap)
  else (.freeSpaceCorrupted, self, pRecordIndexMap, rFreeSpace)

end IndexBlock

end TransDB
