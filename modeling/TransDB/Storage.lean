/-
`Storage.cpp`: the store, and what the workers do to it.

The two files are part of the state, and so is the order in which they are
written: `Trace` keeps what was written, which regions an X stopped using, and
which were given back. Nothing reads the trace but the statements about it. A
worker function runs under the accessor of its X from the lookup to its end, so
it is one function on the store; the two calls of `DeleteData` that are not under
one accessor are two functions.

The `LRUCache` a function is given belongs to the calling worker. `none` is
undefined behaviour, or a refused start-up.
-/
import TransDB.IndexBlock

set_option autoImplicit false

namespace TransDB

/-! ## The files -/

/-- The data file: its bytes up to its size. -/
structure DataFile where
  bytes : Int → UInt8
  size : Int

namespace DataFile

/-- The block at a position. -/
def block (f : DataFile) (pos : Int) : Block where
  bytes := (List.range BLOCK_SIZE).map fun i : ℕ => f.bytes (pos + i)
  size_eq := by rw [List.length_map, List.length_range]

/-- `fseek` and `fread` of a number of blocks. -/
def fread (f : DataFile) (pos : Int) (blockCount : ℕ) : Option (List Block) :=
  if 0 ≤ pos ∧ pos + blockCount * BLOCK_SIZE ≤ f.size then
    some ((List.range blockCount).map fun i : ℕ => f.block (pos + i * BLOCK_SIZE))
  else none

/-- `fseek` and `fwrite`. -/
def fwrite (f : DataFile) (pos : Int) (src : List UInt8) : DataFile where
  bytes p := if pos ≤ p ∧ p < pos + src.length then src.getD (p - pos).toNat 0 else f.bytes p
  size := max f.size (pos + src.length)

/-- `fresize`; what is added is zero. -/
def fresize (f : DataFile) (size : Int) : DataFile where
  bytes p := if p < f.size then f.bytes p else 0
  size := size

end DataFile

/-- The files of a store. -/
structure Files where
  data : DataFile
  index : IndexFile

/-- One call that changes a file. -/
inductive FileWrite
  | data (pos : Int) (src : List UInt8)
  | resize (size : Int)
  | index (blockNumber : ℕ) (b : IndexDiskBlock)

/-- What a call does to the files. -/
def Files.apply (f : Files) : FileWrite → Files
  | .data pos src => { f with data := f.data.fwrite pos src }
  | .resize size => { f with data := f.data.fresize size }
  | .index blockNumber b => { f with index := f.index.putBlock blockNumber b }

/-- The history of a store. -/
structure Trace where
  /-- The calls that changed a file. -/
  writes : List FileWrite := []
  /-- The regions an X stopped using. -/
  retired : List Region := []
  /-- The retired regions passed to `AddFreeSpace`. -/
  freed : List Region := []
  /-- The slots whose X was deleted, as block number and offset. -/
  deleted : List (ℕ × Int) := []
  /-- The slots `EraseRecord` cleared. -/
  erased : List (ℕ × Int) := []

/-! ## The store -/

/-- `WriteInfo` -/
structure WriteInfo where
  m_key : UInt64
  m_recordPosition : Int
  deriving DecidableEq, Repr

/-- `Storage` with the members of its `DiskWriter`, and its files. -/
structure Storage where
  files : Files
  trace : Trace
  m_dataFileSize : Int
  m_pDataIndexDiskWriter : IndexBlock
  m_dataIndexes : RecordIndexMap
  m_memoryUsed : UInt64
  /-- `m_pDiskWriter->m_rFreeSpace` -/
  m_rFreeSpace : FreeSpaceBlockMap
  /-- `m_pDiskWriter->m_pQueue` -/
  m_pQueue : AList fun _ : UInt64 => WriteInfo
  /-- `m_pDiskWriter->m_pRIDelQueue` -/
  m_pRIDelQueue : RecordIndexMap

namespace Storage

/-- A write to a file. -/
def write (self : Storage) (w : FileWrite) : Storage :=
  { self with
    files := self.files.apply w
    trace := { self.trace with writes := self.trace.writes ++ [w] } }

/-- A store through the accessor of `x`. -/
def setIndex (self : Storage) (x : UInt64) (r : RecordIndex) : Storage :=
  { self with m_dataIndexes := self.m_dataIndexes.insert x r }

end Storage

/-! ## The queues -/

namespace DiskWriter

/-- `DiskWriter::Queue` -/
def Queue (self : Storage) (x : UInt64) (r : RecordIndex) : Storage :=
  { self with
    --add to queue, if exists replace
    m_pQueue := self.m_pQueue.insert x ⟨x, r.m_recordStart⟩
    --set InDiskWriteQueue flag
    m_dataIndexes := self.m_dataIndexes.insert x { r with inDiskWriteQueue := true } }

/-- The copy `QueueIndexDeletetion` makes of an entry. -/
def deletedCopy (r : RecordIndex) : RecordIndex where
  m_recordStart := r.m_recordStart
  m_pBlockManager := none
  m_blockCount := r.m_blockCount
  m_IB_recordOffset := r.m_IB_recordOffset
  m_IB_blockNumber := r.m_IB_blockNumber
  m_crc32 := 0
  relocateBlocks := false
  dirty := false
  inDiskWriteQueue := false

/-- The region an entry has in the data file. -/
def usedRegion (r : RecordIndex) : List Region := if r.m_recordStart ≠ -1 then [r.region] else []

/-- The slot an entry has in the index file. -/
def usedSlot (r : RecordIndex) : List (ℕ × Int) :=
  if r.m_IB_recordOffset ≠ -1 then [(r.m_IB_blockNumber, r.m_IB_recordOffset)] else []

/-- `DiskWriter::QueueIndexDeletetion` -/
def QueueIndexDeletetion (self : Storage) (x : UInt64) (r : RecordIndex) : Storage :=
  { self with
    --add to queue
    m_pRIDelQueue := self.m_pRIDelQueue.insert x (deletedCopy r)
    trace := { self.trace with
      retired := self.trace.retired ++ usedRegion r
      deleted := self.trace.deleted ++ usedSlot r } }

/-- `DiskWriter::Remove` -/
def Remove (self : Storage) (x : UInt64) : Storage :=
  { self with m_pQueue := self.m_pQueue.erase x }

/-- `DiskWriter::ReallocDataFile` -/
def ReallocDataFile (ReallocSize : Int) (self : Storage) (minSize : Int) (oAddFreeSpace : Bool) :
    Storage :=
  let reallocSize := max ReallocSize minSize
  let startFreeSpace := self.files.data.size
  --set end of file
  let self := self.write (.resize (startFreeSpace + reallocSize))
  { self with
    --add free space
    m_rFreeSpace :=
      if oAddFreeSpace then self.m_rFreeSpace.AddFreeSpace startFreeSpace reallocSize
      else self.m_rFreeSpace
    --update dataFileSize
    m_dataFileSize := self.m_dataFileSize + reallocSize }

end DiskWriter

open DiskWriter

namespace Storage

variable (sh : Shared)

/-- `blman_get_memory_usage` as the `uint64` it returns. -/
def memoryUsage (m : Blman) : UInt64 := UInt64.ofNat (m.memoryUsage sh)

/-- `m_memoryUsed` after the usage of a manager went from one value to another. -/
def addMemory (self : Storage) (before after : UInt64) : Storage :=
  { self with m_memoryUsed := self.m_memoryUsed + (after - before) }

/-- `Storage::CheckBlockManager`: the block manager of the entry, loaded if it is
not in memory. An error of the CRC is only logged. The callers go on with a `NULL`
manager when it returns false. -/
def CheckBlockManager (self : Storage) (x : UInt64) (r : RecordIndex) :
    Option (Storage × RecordIndex × Blman) :=
  match r.m_pBlockManager with
  | some m => some (self, r, m)
  | none =>
    --this cannot happen, else it causes a crash
    if r.relocateBlocks then none
    else do
      --read all blocks in one IO
      let pBlocks ← self.files.data.fread r.m_recordStart r.m_blockCount
      --create new blockmanager
      let m ← Blman.create (some pBlocks)
      let r := { r with m_pBlockManager := some m }
      --update memory usage
      let self := { self with m_memoryUsed := self.m_memoryUsed + memoryUsage sh m }
      return (self.setIndex x r, r, m)

/-- What `ReadData`, `GetAllY` and `LoadFromDisk` have in common: `read` is what
they do with the block manager of `x`. -/
def withBlockManager {β : Type} (self : Storage) (rLRUCache : LRUCache) (x : UInt64)
    (read : Blman → Option β) : Option (Option β × Storage × LRUCache) :=
  match self.m_dataIndexes.lookup x with
  | none => some (none, self, rLRUCache)
  | some r => do
    --update LRU
    let rLRUCache ← rLRUCache.put x
    --check manager - load from disk if not in memory
    let (self, _, m) ← self.CheckBlockManager sh x r
    let out ← read m
    return (some out, self, rLRUCache)

/-- `Storage::ReadData` of one record -/
def ReadData (self : Storage) (rLRUCache : LRUCache) (x y : UInt64) (pData : List UInt8) :
    Option (Option (List UInt8) × Storage × LRUCache) :=
  self.withBlockManager sh rLRUCache x fun m => m.readRecord sh y pData

/-- `Storage::ReadData` of all records -/
def ReadDataAll (self : Storage) (rLRUCache : LRUCache) (x : UInt64) (pData : List UInt8) :
    Option (Option (List UInt8) × Storage × LRUCache) :=
  self.withBlockManager sh rLRUCache x fun m => m.readRecords sh pData

/-- `Storage::GetAllY` -/
def GetAllY (self : Storage) (rLRUCache : LRUCache) (x : UInt64) :
    Option (Option (List UInt64) × Storage × LRUCache) :=
  self.withBlockManager sh rLRUCache x fun m => some m.getAllRecordKeys

/-- `Storage::DefragmentDataInternal`; `cfg i` is what the `i`-th write of the
defragmentation reads. -/
def DefragmentDataInternal (cfg : ℕ → WriteCfg) (self : Storage) (x : UInt64) (r : RecordIndex)
    (m : Blman) : Option Storage := do
  --save memory usage
  let memoryUsageBeforeDefrag := m.memoryUsage sh
  --DEFRAGMENT
  let m ← m.defragmentData sh cfg
  --calc new memory usage
  let memoryUsageAfterDefrag := m.memoryUsage sh
  --set flag reallocate blocks, set dirty
  let r := { r with m_pBlockManager := some m, relocateBlocks := true, dirty := true }
  --update memory usage
  let self :=
    if memoryUsageAfterDefrag < memoryUsageBeforeDefrag then
      self.addMemory (UInt64.ofNat memoryUsageBeforeDefrag) (UInt64.ofNat memoryUsageAfterDefrag)
    else
      self.addMemory (UInt64.ofNat memoryUsageAfterDefrag) (UInt64.ofNat memoryUsageBeforeDefrag)
  --queue write to disk
  return Queue self x r

/-- The branch of `WriteData` for a new X. -/
def writeNew (cfg : WriteCfg) (self : Storage) (x y : UInt64) (pRecord : List UInt8) :
    Option (WriteStatus × Storage) := do
  --create block manager + add new block for write + update num of blocks
  let m ← Blman.create none
  let blockCount := m.blockCount
  --write data to block
  let (status, m) ← m.writeRecord sh cfg y pRecord
  let r : RecordIndex :=
    { m_recordStart := -1, m_pBlockManager := some m, m_blockCount := blockCount
      m_IB_recordOffset := -1, m_IB_blockNumber := 0, m_crc32 := 0
      relocateBlocks := true, dirty := true, inDiskWriteQueue := false }
  --update memory usage
  let self := { self with m_memoryUsed := self.m_memoryUsed + memoryUsage sh m }
  --queue write to disk
  return (status, Queue self x r)

/-- What `WriteData` does with the status of `blman_write_record` on an existing
X; `before` is the memory usage before the write, `m` the manager after it. -/
def afterWrite (cfgs : ℕ → WriteCfg) (self : Storage) (x : UInt64) (r : RecordIndex)
    (before : UInt64) (status : WriteStatus) (m : Blman) : Option Storage :=
  let r := { r with m_pBlockManager := some m }
  if status.failRecordTooBig then some (self.setIndex x r)
  else if status.oldRecord then
    --update memory usage
    some ((self.addMemory before (memoryUsage sh m)).setIndex x r)
  else if status.needDefrag then
    self.DefragmentDataInternal sh cfgs x r m
  else if status.reallocatedBlocks then
    --set flag reallocate blocks, set dirty, update memory usage, queue write to disk
    some (Queue (self.addMemory before (memoryUsage sh m)) x
      { r with relocateBlocks := true, dirty := true })
  else
    --update memory usage, queue write to disk
    some (Queue (self.addMemory before (memoryUsage sh m)) x r)

/-- `Storage::WriteData`; `cfg` is what its write reads from `g_cfg`, `cfgs i` what
the `i`-th write of a defragmentation reads. -/
def WriteData (cfg : WriteCfg) (cfgs : ℕ → WriteCfg) (self : Storage) (rLRUCache : LRUCache)
    (x y : UInt64) (pRecord : List UInt8) : Option (WriteStatus × Storage × LRUCache) := do
  --update LRU
  let rLRUCache ← rLRUCache.put x
  match self.m_dataIndexes.lookup x with
  | none =>
    let (status, self) ← self.writeNew sh cfg x y pRecord
    return (status, self, rLRUCache)
  | some r =>
    --check manager - load from disk if not in memory
    let (self, r, m) ← self.CheckBlockManager sh x r
    --try to write record
    let (status, m') ← m.writeRecord sh cfg y pRecord
    let self ← self.afterWrite sh cfgs x r (memoryUsage sh m) status m'
    return (status, self, rLRUCache)

/-- `Storage::DeleteData` of a whole X, up to the end of its accessor. The `Remove`
that follows is a step of its own. -/
def DeleteData (self : Storage) (rLRUCache : LRUCache) (x : UInt64) :
    Option (Storage × LRUCache) :=
  match self.m_dataIndexes.lookup x with
  | none => some (self, rLRUCache)
  | some r => do
    --delete from LRU
    let (_, rLRUCache) ← rLRUCache.remove x
    --queue delete from disk
    let self := QueueIndexDeletetion self x r
    --release memory
    let self := match r.m_pBlockManager with
      | some m => { self with m_memoryUsed := self.m_memoryUsed - memoryUsage sh m }
      | none => self
    --delete from main map
    return ({ self with m_dataIndexes := self.m_dataIndexes.erase x }, rLRUCache)

/-- `Storage::DeleteData` of one record -/
def DeleteRecord (self : Storage) (rLRUCache : LRUCache) (x y : UInt64) :
    Option (Storage × LRUCache) :=
  match self.m_dataIndexes.lookup x with
  | none => some (self, rLRUCache)
  | some r => do
    --update LRU
    let rLRUCache ← rLRUCache.put x
    --check manager - load from disk if not in memory
    let (self, r, m) ← self.CheckBlockManager sh x r
    --delete
    let m' ← m.deleteRecordByKey y
    --update memory usage
    let self := self.addMemory (memoryUsage sh m) (memoryUsage sh m')
    --queue write to disk
    return (Queue self x { r with m_pBlockManager := some m' }, rLRUCache)

/-- `Storage::DefragmentData` -/
def DefragmentData (cfgs : ℕ → WriteCfg) (self : Storage) (rLRUCache : LRUCache) (x : UInt64) :
    Option (Storage × LRUCache) :=
  match self.m_dataIndexes.lookup x with
  | none => some (self, rLRUCache)
  | some r => do
    --update LRU
    let rLRUCache ← rLRUCache.put x
    --check manager - load from disk if not in memory
    let (self, r, m) ← self.CheckBlockManager sh x r
    --defragment
    let self ← self.DefragmentDataInternal sh cfgs x r m
    return (self, rLRUCache)

/-- The block manager of an entry destroyed. -/
def evict (self : Storage) (x : UInt64) (r : RecordIndex) : Storage :=
  match r.m_pBlockManager with
  | some m =>
    { self.setIndex x { r with m_pBlockManager := none } with
      m_memoryUsed := self.m_memoryUsed - memoryUsage sh m }
  | none => self

/-- One turn of the loop of `Storage::CheckMemory`; `limit` is what its test reads as
`MemoryLimit`. -/
def CheckMemory (limit : UInt64) (self : Storage) (rLRUCache : LRUCache) :
    Option (Storage × LRUCache) :=
  if limit < self.m_memoryUsed then do
    let xToDelete ← rLRUCache.get
    match xToDelete with
    | none => return (self, rLRUCache)
    | some xToDelete =>
      match self.m_dataIndexes.lookup xToDelete with
      | some r =>
        --check if record does not wait in disk thread
        if r.inDiskWriteQueue then return (self, rLRUCache)
        else
          --clean memory, delete from LRU
          let (_, rLRUCache) ← rLRUCache.remove xToDelete
          return (self.evict sh xToDelete r, rLRUCache)
      | none =>
        let (_, rLRUCache) ← rLRUCache.remove xToDelete
        return (self, rLRUCache)
  else some (self, rLRUCache)

/-- `Storage::Init`. `order` are the records of the index file in the order the
parallel tasks come to them, `forceStartup` is the start-up flag that accepts
corrupt free space. A resize to a negative size fails. -/
def Init (ReallocSize : Int) (forceStartup : Bool) (order : List ((ℕ × ℕ) × DREC))
    (files : Files) : Option Storage :=
  let self : Storage :=
    { files, trace := {}, m_dataFileSize := files.data.size
      m_pDataIndexDiskWriter := IndexBlock.new, m_dataIndexes := ∅, m_memoryUsed := 0
      m_rFreeSpace := ∅, m_pQueue := ∅, m_pRIDelQueue := ∅ }
  if files.data.size = 0 ∧ ReallocSize < 0 then none
  else
    --prealloc data file
    let self := if files.data.size = 0 then ReallocDataFile ReallocSize self ReallocSize false
      else self
    --load indexes and freespaces
    let (status, index, dataIndexes, rFreeSpace) :=
      self.m_pDataIndexDiskWriter.Init files.index order (some self.m_dataIndexes)
        self.m_rFreeSpace self.m_dataFileSize
    let self := { self with
      m_pDataIndexDiskWriter := index
      m_dataIndexes := dataIndexes.getD ∅
      m_rFreeSpace := rFreeSpace }
    if status = .ok then some self
    else if forceStartup then some (ReallocDataFile ReallocSize self ReallocSize true)
    else none

end Storage

end TransDB
