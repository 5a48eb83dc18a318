/-
`DiskWriter.cpp`: what the disk thread does.

`Process` is the function as it runs when nothing else does. Between its locks
other threads can run, so its parts are functions of their own, from one lock to
the next: the deletion of one queued entry, one item of the batch, one region
given back. The order in which a hash map lists its keys is an argument.
-/
import TransDB.Storage

set_option autoImplicit false

namespace TransDB

/-- What the handling of one item reads from `g_cfg`. -/
structure DiskCfg where
  ReallocSize : Int
  IndexBlockCacheSize : ℕ

namespace Storage

/-- The members that a call of the `IndexBlock` changes, and the block it wrote. -/
def writeIndex (self : Storage) (index : IndexBlock) (hIndexFile : IndexFile) (blockNumber : ℕ) :
    Storage :=
  { self with
    m_pDataIndexDiskWriter := index
    files := { self.files with index := hIndexFile }
    trace := { self.trace with
      writes := self.trace.writes ++ (hIndexFile[blockNumber]?).toList.map (.index blockNumber) } }

/-- `AddFreeSpace` of a region an X stopped using. -/
def addFreeSpace (self : Storage) (r : Region) : Storage :=
  { self with
    m_rFreeSpace := self.m_rFreeSpace.AddFreeSpace r.pos r.len
    trace := { self.trace with freed := self.trace.freed ++ [r] } }

end Storage

namespace DiskWriter

variable (sh : Shared)

/-! ## Writing the data -/

/-- The loop of `WriteDataWithoutRelocateFlag` from block `i` on: the blocks it
leaves and the store. -/
def writeDirtyLoop (recordStart : Int) : ℕ → List Block → Storage → List Block × Storage
  | _, [], self => ([], self)
  | i, pBlock :: blocks, self =>
    if pBlock.isDirty then
      --clear dirty flag
      let pBlock := pBlock.clearDirty
      --calc offset + write to disk
      let (blocks, self) := writeDirtyLoop recordStart (i + 1) blocks
        (self.write (.data (recordStart + i * BLOCK_SIZE) pBlock.bytes))
      (pBlock :: blocks, self)
    else
      let (blocks, self) := writeDirtyLoop recordStart (i + 1) blocks self
      (pBlock :: blocks, self)

/-- `DiskWriter::WriteDataWithoutRelocateFlag` -/
def WriteDataWithoutRelocateFlag (self : Storage) (r : RecordIndex) (m : Blman) :
    Storage × RecordIndex × Blman :=
  let (blocks, self) := writeDirtyLoop r.m_recordStart 0 m.blocks self
  let m := { m with blocks }
  (self, { r with m_pBlockManager := some m }, m)

/-- `GetFreeSpacePos` on the store. -/
def takeFreeSpace (self : Storage) (requestDiskSize : Int) : Option (Int × Storage) := do
  let (freePos, rFreeSpace) ← self.m_rFreeSpace.GetFreeSpacePos requestDiskSize
  return (freePos, { self with m_rFreeSpace := rFreeSpace })

/-- `GetFreeSpacePos`, and once more after `ReallocDataFile` if there is no room. -/
def allocate (ReallocSize : Int) (self : Storage) (requestDiskSize : Int) :
    Option (Int × Storage) := do
  let (freePos, self) ← takeFreeSpace self requestDiskSize
  if freePos = -1 then
    takeFreeSpace (ReallocDataFile ReallocSize self requestDiskSize true) requestDiskSize
  else return (freePos, self)

/-- `DiskWriter::WriteDataWithRelocateFlag`; `none` for the entry is `false`. -/
def WriteDataWithRelocateFlag (ReallocSize : Int) (self : Storage) (r : RecordIndex) (m : Blman) :
    Option (Storage × Option (RecordIndex × Blman)) := do
  let (freePos, self) ← allocate ReallocSize self (m.blockCount * BLOCK_SIZE)
  if freePos = -1 then return (self, none)
  else
    --set new record position, clear dirty flag
    let m := m.clearDirtyFlags
    let r := { r with m_recordStart := freePos, m_pBlockManager := some m }
    --write to disk
    return (self.write (.data freePos (m.blocks.flatMap Block.bytes)), some (r, m))

/-! ## One item of the batch -/

/-- The blocks of an item written, in place or in a new place. With the entry comes
the region it does not use any more. -/
def writeBlocks (ReallocSize : Int) (self : Storage) (r : RecordIndex) (m : Blman) :
    Option (Storage × Option (RecordIndex × Blman × List Region)) :=
  if r.relocateBlocks then do
    --this function will set new m_recordStart
    let (self, written) ← WriteDataWithRelocateFlag ReallocSize self r m
    --queue adding freespace
    return (self, written.map fun w => (w.1, w.2, usedRegion r))
  else
    let (self, r, m) := WriteDataWithoutRelocateFlag self r m
    some (self, some (r, m, []))

/-- The entry after its blocks have been written. -/
def updateEntry (r : RecordIndex) (m : Blman) : RecordIndex :=
  --update block count, update crc32
  let crc32 := Blman.blocksCrc32 sh m.blocks
  { r with
    m_blockCount := m.blockCount
    m_crc32 := crc32
    dirty := r.dirty || r.m_crc32 != crc32
    --clear flag eRIF_RelocateBlocks
    relocateBlocks := false }

/-- The index on disk, updated if changed. -/
def updateIndex (IndexBlockCacheSize : ℕ) (self : Storage) (x : UInt64) (r : RecordIndex) :
    Option (Storage × RecordIndex) :=
  if r.dirty then do
    let (index, hIndexFile, r) ←
      self.m_pDataIndexDiskWriter.writeRecordIndex IndexBlockCacheSize self.files.index x r
    return (self.writeIndex index hIndexFile r.m_IB_blockNumber, { r with dirty := false })
  else some (self, r)

/-- The flag `eRIF_InDiskWriteQueue` cleared, unless `x` has been queued again. -/
def clearQueued (self : Storage) (x : UInt64) (r : RecordIndex) : RecordIndex :=
  if x ∈ self.m_pQueue then r else { r with inDiskWriteQueue := false }

/-- One turn of the loop of `Process`; `rFreeSpaceToAdd` are the regions given up so
far. A `NULL` block manager is dereferenced. -/
def processItem (cfg : DiskCfg) (self : Storage) (rFreeSpaceToAdd : List Region)
    (item : WriteInfo) : Option (Storage × List Region) :=
  match self.m_dataIndexes.lookup item.m_key with
  | none => some (self, rFreeSpaceToAdd)
  | some r => do
    let m ← r.m_pBlockManager
    let (self, written) ← writeBlocks cfg.ReallocSize self r m
    match written with
    | none => return (self, rFreeSpaceToAdd)
    | some (r, m, unused) =>
      let (self, r) ← updateIndex cfg.IndexBlockCacheSize self item.m_key (updateEntry sh r m)
      let self := { self with trace := { self.trace with retired := self.trace.retired ++ unused } }
      return (self.setIndex item.m_key (clearQueued self item.m_key r), rFreeSpaceToAdd ++ unused)

/-! ## The deletion queue -/

/-- One turn of the loop of `ProcessIndexDeleteQueue`. -/
def deleteItem (IndexBlockCacheSize : ℕ) (self : Storage) (r : RecordIndex) : Option Storage := do
  --add free space
  let self := (usedRegion r).foldl Storage.addFreeSpace self
  --delete record index from disk
  let (index, hIndexFile) ← self.m_pDataIndexDiskWriter.EraseRecord IndexBlockCacheSize
    self.files.index r.m_IB_blockNumber r.m_IB_recordOffset
  if r.m_IB_recordOffset = -1 then return self
  else
    let self := self.writeIndex index hIndexFile r.m_IB_blockNumber
    return { self with trace := { self.trace with erased := self.trace.erased ++ usedSlot r } }

/-- `_S_DiskWriter_GetItemsFromIndexDelQueue`: the queue cleared, and its values in
the order of its keys. -/
def getDeleted (self : Storage) (order : List UInt64) : Option (List RecordIndex × Storage) :=
  if order.Perm self.m_pRIDelQueue.keys then
    some (order.filterMap self.m_pRIDelQueue.lookup, { self with m_pRIDelQueue := ∅ })
  else none

/-- `DiskWriter::ProcessIndexDeleteQueue`; each deletion reads the size of the index
cache. -/
def ProcessIndexDeleteQueue (self : Storage) (order : List UInt64)
    (IndexBlockCacheSize : ℕ → ℕ) : Option Storage := do
  let (rDeleteQueue, self) ← getDeleted self order
  rDeleteQueue.zipIdx.foldlM
    (fun self rRecordIndex => deleteItem (IndexBlockCacheSize rRecordIndex.2) self rRecordIndex.1) self

/-! ## The flush -/

/-- The order of `_S_SortWriteInfoForWrite`. -/
def SortWriteInfoForWrite (a b : WriteInfo) : Prop := a.m_recordPosition ≤ b.m_recordPosition

instance : DecidableRel SortWriteInfoForWrite := fun _ _ => inferInstanceAs (Decidable (_ ≤ _))

/-- `_S_DiskWriter_ProcessQueue` and the sort: the queue cleared, and its values in
an order that is sorted by position. -/
def getItems (self : Storage) (order : List UInt64) : Option (List WriteInfo × Storage) :=
  let items := order.filterMap self.m_pQueue.lookup
  if order.Perm self.m_pQueue.keys ∧ items.Pairwise SortWriteInfoForWrite then
    some (items, { self with m_pQueue := ∅ })
  else none

/-- What one run of `Process` depends on besides the store. -/
structure ProcessArgs where
  deleteOrder : List UInt64
  deleteCacheSize : ℕ → ℕ
  order : List UInt64
  cfg : ℕ → DiskCfg

/-- `DiskWriter::Process`, with nothing else running. -/
def Process (args : ProcessArgs) (self : Storage) : Option Storage := do
  --process index delete queue (delete from disk)
  let self ← ProcessIndexDeleteQueue self args.deleteOrder args.deleteCacheSize
  --get all items from queue to process
  let (rAllItemsToProcess, self) ← getItems self args.order
  --iterate items and write to disk
  let (self, rFreeSpaceToAdd) ← rAllItemsToProcess.zipIdx.foldlM
    (fun (st : Storage × List Region) item =>
      processItem sh (args.cfg item.2) st.1 st.2 item.1) (self, [])
  --add freespace from queue to Storage
  return rFreeSpaceToAdd.foldl Storage.addFreeSpace self

/-- `DiskWriter::DefragmentFreeSpace`; `order` as in `Storage.Init`. On an error the
free space stays as it is. -/
def DefragmentFreeSpace (order : List ((ℕ × ℕ) × DREC)) (self : Storage) : Storage :=
  let (_, index, _, rFreeSpace) := self.m_pDataIndexDiskWriter.Init self.files.index order none
    self.m_rFreeSpace self.m_dataFileSize
  { self with m_pDataIndexDiskWriter := index, m_rFreeSpace := rFreeSpace }

end DiskWriter

end TransDB
