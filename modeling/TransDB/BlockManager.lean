/-
`BlockManager.c`: the records of one X.

A block manager is an array of blocks and a tree from record key to block
number. The tree is libavl's, taken as a correct ordered map: a key-value map
plus its traversal in the order of the comparator. Every function below is the
C function over that state; `none` is undefined behaviour (an access outside
the blocks, a wrapped block counter) or a loop that never leaves.

One call of `blman_write_record` reads `g_cfg` several times while another
thread may be storing to it, so each read is its own component of `WriteCfg`.
-/
import TransDB.Block
import Mathlib.Data.List.AList
import Mathlib.Data.List.Sort

set_option autoImplicit false

namespace TransDB

open ByteList

/-- What one call of `blman_write_record` reads from `g_cfg`. -/
structure WriteCfg where
  RecordSizeForCompression : Int
  GzipCompressionLevel : Int
  EnableRecordLimit : Bool
  /-- The successive reads: the `if` first, then each test of the `while`. -/
  RecordLimit : ℕ → Int
  DefragAfterRecordDelete : Int

/-- The status bits of `BlockManagerStatus` that the callers test; `eBMS_Ok` is
set exactly when `eBMS_FailRecordTooBig` is not. -/
structure WriteStatus where
  reallocatedBlocks : Bool := false
  failRecordTooBig : Bool := false
  recordCountLimit : Bool := false
  oldRecord : Bool := false
  needDefrag : Bool := false
  deriving DecidableEq, Repr

/-- `memcmp` of two buffers. -/
def memcmp : List UInt8 → List UInt8 → Ordering
  | a :: as, b :: bs => if a < b then .lt else if b < a then .gt else memcmp as bs
  | _, _ => .eq

/-- `blockindex_cmp`: the keys compared as the bytes they have in memory. -/
def blockindex_cmp (a b : UInt64) : Ordering := memcmp (toLE 8 a.toNat) (toLE 8 b.toNat)

/-- The block index: record key to block number. -/
abbrev AvlTable := AList fun _ : UInt64 => ℕ

namespace AvlTable

/-- `avl_count` -/
def count (t : AvlTable) : ℕ := t.entries.length

/-- The keys as `avl_t_next` visits them. -/
def inOrder (t : AvlTable) : List UInt64 :=
  t.keys.insertionSort fun a b => blockindex_cmp a b ≠ .gt

/-- `avl_t_first` -/
def first (t : AvlTable) : Option UInt64 := t.inOrder.head?

/-- `avl_insert`: an existing item stays. -/
def avlInsert (t : AvlTable) (key : UInt64) (blockNumber : ℕ) : AvlTable :=
  if key ∈ t then t else t.insert key blockNumber

end AvlTable

/-- `struct BlockManager`; `blockCount` is the length of `blocks`. -/
structure Blman where
  blockIndex : AvlTable
  blocks : List Block

namespace Blman

/-- `blockCount` -/
def blockCount (self : Blman) : ℕ := self.blocks.length

/-- `blman_get_block`, inside the allocation only. -/
def getBlock (self : Blman) (blocknum : ℕ) : Option Block := self.blocks[blocknum]?

/-- A store through the block pointer. -/
def setBlock (self : Blman) (blocknum : ℕ) (b : Block) : Blman :=
  { self with blocks := self.blocks.set blocknum b }

/-- A block of zeroes. -/
def zeroBlock : Block where
  bytes := List.replicate BLOCK_SIZE 0
  size_eq := List.length_replicate

/-- `blman_delete_record_by_node`; a key missing in its block is only logged. -/
def deleteRecordByNode (self : Blman) (key : UInt64) (blockNumber : ℕ) : Option Blman := do
  let block ← self.getBlock blockNumber
  let (_, block) ← block.deleteRecordByKey key
  let self := self.setBlock blockNumber block
  return { self with blockIndex := self.blockIndex.erase key }

/-- `blman_realloc_blocks`. The `uint16` counter must not wrap: at 0 the copy
size `(blockCount - 1) * BLOCK_SIZE` is negative. -/
def reallocBlocks (self : Blman) : Option Blman :=
  if self.blockCount + 1 < 65536 then
    some { self with blocks := self.blocks ++ [zeroBlock.initBlock] }
  else none

/-- `blman_dealloc_blocks` -/
def deallocBlocks (_self : Blman) : Blman := { blockIndex := ∅, blocks := [] }

/-- The scan of `blman_create` over one block. -/
def indexLoop (b : Block) (blockNumber endOfRDFArea : ℕ) : ℕ → ℕ → AvlTable → Option AvlTable
  | 0, _, _ => none
  | fuel + 1, position, index =>
    if position < endOfRDFArea then some index
    else do
      let rdf ← b.loadRDF position
      indexLoop b blockNumber endOfRDFArea fuel (u16 (position - sizeofRDF))
        (index.avlInsert rdf.m_key blockNumber)

/-- The index entries of one block. -/
def indexBlock (b : Block) (blockNumber : ℕ) (index : AvlTable) : Option AvlTable :=
  let cidf := b.getCIDF
  indexLoop b blockNumber (u16 (cidf.m_location + cidf.m_amoutOfFreeSpace)) BLOCK_SIZE
    (CIDFOffset - sizeofRDF) index

/-- The index of the blocks from number `i` on. -/
def indexBlocks : ℕ → List Block → AvlTable → Option AvlTable
  | _, [], index => some index
  | i, b :: bs, index => do
    let index ← indexBlock b i index
    indexBlocks (i + 1) bs index

/-- `blman_create`; `none` is the `NULL` of a new X. -/
def create : Option (List Block) → Option Blman
  | some blocks => do
    let index ← indexBlocks 0 blocks ∅
    return { blockIndex := index, blocks }
  | none => reallocBlocks { blockIndex := ∅, blocks := [] }

/-- `avl_count >= RecordLimit`, with the `int` converted to `size_t`. -/
def countReaches (count : ℕ) (limit : Int) : Bool := (limit % 2 ^ 64).toNat ≤ count

/-- How the record-limit loop ends: refused as older than the oldest record, or
through its test. Both with the number of records removed. -/
inductive LimitExit
  | refused (removedRecords : ℕ)
  | passed (removedRecords : ℕ)
  deriving DecidableEq, Repr

/-- The `while` of phase 2. A turn that finds no node changes nothing, and the
loop spins on it for as long as the limit reads 0. -/
def recordLimitLoop (limit : ℕ → Int) (recordkey : UInt64) :
    ℕ → ℕ → Blman → Option (LimitExit × Blman)
  | 0, _, _ => none
  | fuel + 1, removedRecords, self =>
    if countReaches self.blockIndex.count (limit removedRecords) then
      match self.blockIndex.first with
      | none => none
      | some node =>
        --DO NOT ADD OLDER DATA
        if recordkey < node then some (.refused removedRecords, self)
        else do
          let blockNumber ← self.blockIndex.lookup node
          let self ← self.deleteRecordByNode node blockNumber
          recordLimitLoop limit recordkey fuel (removedRecords + 1) self
    else some (.passed removedRecords, self)

/-- The search for a block with room, from the last to the first, and the
reallocation after the first. -/
def writeLoop (recordkey : UInt64) (record : List UInt8) :
    ℕ → ℕ → Bool → Blman → Option (Bool × Blman)
  | 0, _, _, _ => none
  | fuel + 1, blockNum, reallocated, self => do
    let blockNum := u16 (blockNum - 1)
    let block ← self.getBlock blockNum
    let (writeStatus, block) ← block.writeRecord recordkey record
    let self := self.setBlock blockNum block
    if writeStatus = .ok then
      return (reallocated, { self with blockIndex := self.blockIndex.avlInsert recordkey blockNum })
    else if blockNum = 0 ∧ writeStatus = .noSpaceForNewData then
      let self ← self.reallocBlocks
      writeLoop recordkey record fuel self.blockCount true self
    else
      writeLoop recordkey record fuel blockNum reallocated self

variable (sh : Shared)

/-- Phase 0: the bytes to store. -/
def compressRecord (cfg : WriteCfg) (record : List UInt8) : List UInt8 :=
  if cfg.RecordSizeForCompression < record.length then
    match sh.compressGzip cfg.GzipCompressionLevel record with
    | some out => if out.length < record.length then out else record
    | none => record
  else record

/-- Phase 1: try to update. `true` when the record has been stored. -/
def tryUpdate (self : Blman) (recordkey : UInt64) (record : List UInt8) :
    Option (Bool × Blman) :=
  match self.blockIndex.lookup recordkey with
  | none => some (false, self)
  | some blockNumber => do
    let block ← self.getBlock blockNumber
    let (updateStatus, block) ← block.updateRecord recordkey record
    let self := self.setBlock blockNumber block
    if updateStatus = .ok then
      return (true, self)
    else
      --delete key, record will be on another block
      return (false, { self with blockIndex := self.blockIndex.erase recordkey })

/-- Phase 2: check record limit. -/
def checkRecordLimit (self : Blman) (cfg : WriteCfg) (recordkey : UInt64) :
    Option (WriteStatus × Blman) :=
  if cfg.EnableRecordLimit && countReaches self.blockIndex.count (cfg.RecordLimit 0) then do
    let (exit, self) ← recordLimitLoop (fun i => cfg.RecordLimit (i + 1)) recordkey
      (self.blockIndex.count + 1) 0 self
    match exit with
    | .refused _ => return ({ recordCountLimit := true, oldRecord := true }, self)
    | .passed removedRecords =>
      return ({ recordCountLimit := removedRecords ≠ 0
                needDefrag := cfg.DefragAfterRecordDelete ≤ removedRecords }, self)
  else some ({}, self)

/-- `blman_write_record`; `recordsize` is the length of `record`. -/
def writeRecord (cfg : WriteCfg) (self : Blman) (recordkey : UInt64) (record : List UInt8) :
    Option (WriteStatus × Blman) := do
  --size check
  if MAX_RECORD_SIZE < record.length then
    return ({ failRecordTooBig := true }, self)
  let record := compressRecord sh cfg record
  let (updated, self) ← self.tryUpdate recordkey record
  if updated then
    return ({}, self)
  let (retStatus, self) ← self.checkRecordLimit cfg recordkey
  if retStatus.oldRecord then
    return (retStatus, self)
  --PHASE 3 --> try to write
  let (reallocated, self) ← writeLoop recordkey record (self.blockCount + 2) self.blockCount false
    self
  return ({ retStatus with reallocatedBlocks := reallocated }, self)

/-- `blman_read_record` into the output buffer. -/
def readRecord (self : Blman) (recordkey : UInt64) (record : List UInt8) : Option (List UInt8) :=
  match self.blockIndex.lookup recordkey with
  | none => some record
  | some blockNumber => do
    let block ← self.getBlock blockNumber
    block.getRecord sh recordkey record

/-- `blman_read_records` into the output buffer. -/
def readRecords (self : Blman) (records : List UInt8) : Option (List UInt8) :=
  self.blocks.foldlM (fun out b => b.getRecords sh out) records

/-- `blman_delete_record_by_key` -/
def deleteRecordByKey (self : Blman) (recordkey : UInt64) : Option Blman :=
  match self.blockIndex.lookup recordkey with
  | none => some self
  | some blockNumber => self.deleteRecordByNode recordkey blockNumber

/-- `blman_get_all_record_keys`: the keys appended to the buffer, in order. -/
def getAllRecordKeys (self : Blman) : List UInt64 := self.blockIndex.inOrder

/-- `blman_clear_dirty_flags` -/
def clearDirtyFlags (self : Blman) : Blman :=
  { self with blocks := self.blocks.map Block.clearDirty }

/-- `bbuff_read` of `n` bytes: the bytes, and what is left to read. -/
def bbuffRead (rest : List UInt8) (n : ℕ) : List UInt8 × List UInt8 :=
  if n ≤ rest.length then (rest.take n, rest.drop n) else ((sh.shortRead rest n).takeD n 0, [])

/-- The insert loop of `blman_defragment_data` over what is left of the stream.
A record longer than `arData` overruns the stack. -/
def insertLoop (cfg : ℕ → WriteCfg) : ℕ → ℕ → List UInt8 → Blman → Option Blman
  | 0, _, rest, self => if rest = [] then some self else none
  | fuel + 1, i, rest, self =>
    if rest = [] then some self
    else do
      let (keyBytes, rest) := bbuffRead sh rest 8
      let (sizeBytes, rest) := bbuffRead sh rest 2
      let recordSize := ofLE sizeBytes
      if BLOCK_SIZE < recordSize then none
      else
        let (arData, rest) := bbuffRead sh rest recordSize
        --insert - ignore return value
        let (_, self) ← self.writeRecord sh (cfg i) (UInt64.ofNat (ofLE keyBytes)) arData
        insertLoop cfg fuel (i + 1) rest self

/-- `blman_defragment_data`; `cfg i` is what its `i`-th write reads. -/
def defragmentData (cfg : ℕ → WriteCfg) (self : Blman) : Option Blman := do
  if self.blockIndex.count = 0 then
    return self
  let records ← self.readRecords sh []
  let self ← self.deallocBlocks.reallocBlocks
  insertLoop sh cfg records.length 0 records self

/-- `blman_get_blocks_crc32` of an array of blocks. -/
def blocksCrc32 (blocks : List Block) : UInt32 :=
  sh.crc32_compute (blocks.flatMap fun b => toLE 4 (sh.crc32_compute b.bytes).toNat)

/-- `sizeof(blidxnode)` -/
def sizeofBlidxnode : ℕ := 16

/-- `sizeof(blman)` -/
def sizeofBlman : ℕ := 24

/-- `blman_get_memory_usage`, before it is stored in a `uint64`. -/
def memoryUsage (self : Blman) : ℕ :=
  self.blockIndex.count * (sh.sizeofAvlNode + sizeofBlidxnode) + self.blockCount * BLOCK_SIZE
    + sizeofBlman

end Blman

end TransDB
