/-
The disk thread keeps the invariants.

Each part of `Process` that runs between two locks moves a region from one owner
to another: a deletion from the entry to the free space, an item from the free
space to the entry and from the entry to `rFreeSpaceToAdd`. What the other entries
have in the data file is apart from the region that is written, so it is read as
before.
-/
import TransDB.DiskWriterSpec

set_option autoImplicit false

namespace TransDB

open DiskWriter Storage

/-! ## Reading outside the region that is written -/

section OnlyIn

variable {reg : Region} {f g : DataFile}

theorem Stored.onlyIn {pos : Int} {n : ℕ} {bs : List Block} (h : Stored f pos n bs)
    (hf : DataFile.OnlyIn reg f g) (ha : (DataFile.blocksAt pos n).Apart reg) : Stored g pos n bs :=
  ⟨hf.fread h.read ha, h.sound, h.nonempty, h.count_lt⟩

theorem Intact.onlyIn {sh : Shared} {d : DREC} {bs : List Block} (h : Intact sh f d bs)
    (hf : DataFile.OnlyIn reg f g) (ha : d.region.Apart reg) : Intact sh g d bs :=
  ⟨h.stored.onlyIn hf ha, h.crc⟩

theorem EntryOk.onlyIn {r : RecordIndex} (h : EntryOk f r) (hf : DataFile.OnlyIn reg f g)
    (ha : r.relocateBlocks = false → r.region.Apart reg) : EntryOk g r where
  manager := h.manager
  stored hrel := by
    obtain ⟨bs, hst, hm⟩ := h.stored hrel
    exact ⟨bs, hst.onlyIn hf (ha hrel), hm⟩
  dirty := h.dirty

/-- An X that keeps its place has a region. -/
theorem EntryOk.start_nonneg {r : RecordIndex} (h : EntryOk f r) (hrel : r.relocateBlocks = false) :
    0 ≤ r.m_recordStart := by
  obtain ⟨bs, hst, -⟩ := h.stored hrel
  exact (DataFile.fread_eq_some.mp hst.read).1.1

theorem EntryOk.usedRegion {r : RecordIndex} (h : EntryOk f r) (hrel : r.relocateBlocks = false) :
    usedRegion r = [r.region] := by
  have hstart := h.start_nonneg hrel
  exact if_pos (by omega)

end OnlyIn

/-! ## One item -/

/-- The entry of an X whose blocks have been written to `p`. -/
def itemEntry (sh : Shared) (r : RecordIndex) (m : Blman) (p : Int) : RecordIndex :=
  updateEntry sh { r with m_recordStart := p, m_pBlockManager := some m.clearDirtyFlags }
    m.clearDirtyFlags

/-- The store after an item: `index`, `file` and `log` are what `updateIndex` left of
the index, the index file and the history of writes. -/
def Storage.itemDone (self : Storage) (x : UInt64) (r r' : RecordIndex) (ws : List FileWrite)
    (size : Int) (free : FreeSpaceBlockMap) (index : IndexBlock) (file : IndexFile)
    (log : List FileWrite) : Storage :=
  { self with
    files := ⟨(ws.foldl Files.apply self.files).data, file⟩
    trace := { self.trace with writes := log, retired := self.trace.retired ++ givenUp r }
    m_dataFileSize := size
    m_pDataIndexDiskWriter := index
    m_rFreeSpace := free
    m_dataIndexes := self.m_dataIndexes.insert x (clearQueued self x r') }

theorem updateIndex_cases {cacheSize : ℕ} {st st' : Storage} {x : UInt64} {r r' : RecordIndex}
    (h : updateIndex cacheSize st x r = some (st', r')) :
    ∃ index file log offset number,
      st' = { st with
        m_pDataIndexDiskWriter := index
        files := { st.files with index := file }
        trace := { st.trace with writes := log } }
      ∧ r' = { r with
        m_IB_recordOffset := offset
        m_IB_blockNumber := number
        dirty := false } := by
  rw [updateIndex] at h
  by_cases hd : r.dirty = true
  · rw [if_pos hd] at h
    obtain ⟨⟨index, file, r1⟩, hw, h⟩ := Option.bind_eq_some_iff.mp h
    cases h
    obtain ⟨offset, number, rfl⟩ := IndexBlock.WriteRecordIndexToDisk_entry _ hw
    exact ⟨index, file, _, offset, number, rfl, rfl⟩
  · rw [if_neg hd] at h
    cases h
    refine ⟨st.m_pDataIndexDiskWriter, st.files.index, st.trace.writes, r.m_IB_recordOffset,
      r.m_IB_blockNumber, rfl, ?_⟩
    rw [← Bool.eq_false_iff.mpr hd]

theorem updateIndex_length {cacheSize : ℕ} {st st' : Storage} {x : UInt64} {r r' : RecordIndex}
    (h : updateIndex cacheSize st x r = some (st', r')) :
    st.files.index.length ≤ st'.files.index.length := by
  rw [updateIndex] at h
  by_cases hd : r.dirty = true
  · rw [if_pos hd] at h
    obtain ⟨⟨index, file, r1⟩, hw, h⟩ := Option.bind_eq_some_iff.mp h
    cases h
    exact IndexBlock.WriteRecordIndexToDisk_length _ hw
  · rw [if_neg hd] at h
    cases h
    exact Nat.le_refl _

/-- The regions of the others while the entry of `x` is being written. -/
def others (st : Storage) (x : UInt64) (deleting : List RecordIndex) (toAdd lost : List Region) :
    List Region :=
  toAdd ++ (KeyMap.collect (fun _ => usedRegion) (st.m_dataIndexes.erase x)
    ++ queued usedRegion st deleting ++ lost)

/-- The outcome of `processItem` for an X that is in the main index. -/
structure ItemDone (sh : Shared) (cfg : DiskCfg) (st : Storage) (x : UInt64) (r : RecordIndex)
    (m : Blman) (other : List Region) (st' : Storage) (r' : RecordIndex) (ws : List FileWrite)
    (size : Int) (free : FreeSpaceBlockMap) (p : Int) (index : IndexBlock) (file : IndexFile)
    (log : List FileWrite) : Prop where
  lookup : st.m_dataIndexes.lookup x = some r
  manager : r.m_pBlockManager = some m
  placed : Placed st r m other ws size free p
  entry : ∃ offset number, r' = { itemEntry sh r m p with
    m_IB_recordOffset := offset, m_IB_blockNumber := number, dirty := false }
  written : ∃ st1, updateIndex cfg.IndexBlockCacheSize (st.wrote ws size free) x (itemEntry sh r m p)
      = some (st1, r') ∧ st1.m_pDataIndexDiskWriter = index ∧ st1.files.index = file
    ∧ st1.trace.writes = log
  store : st' = st.itemDone x r r' ws size free index file log

namespace DataInv

variable {sh : Shared} {cfg : DiskCfg} {st st' : Storage} {deleting : List RecordIndex}
  {toAdd toAdd' lost : List Region}

/-- The division of the file with the entry of `x` in front. -/
theorem tiles_others (h : DataInv st deleting toAdd lost) {x : UInt64} {r : RecordIndex}
    (hx : st.m_dataIndexes.lookup x = some r) :
    Region.Tiles 0 st.m_dataFileSize (FreeSpaceBlockMap.regions st.m_rFreeSpace
      ++ (usedRegion r ++ others st x deleting toAdd lost)) := by
  refine h.tiles.perm (List.Perm.append_left _ ?_)
  have hp := held_perm usedRegion deleting hx
  rw [List.perm_iff_count] at hp ⊢
  intro reg
  have hc := hp reg
  rw [others]
  simp only [List.count_append] at hc ⊢
  omega

/-- What `processItem` does. -/
theorem processItem_cases (h : DataInv st deleting toAdd lost) {item : WriteInfo}
    (hp : processItem sh cfg st toAdd item = some (st', toAdd')) :
    (st.m_dataIndexes.lookup item.m_key = none ∧ st' = st ∧ toAdd' = toAdd)
      ∨ ∃ r m r' ws size free p index file log,
        ItemDone sh cfg st item.m_key r m (others st item.m_key deleting toAdd lost) st' r' ws size
          free p index file log
        ∧ toAdd' = toAdd ++ givenUp r := by
  rw [processItem] at hp
  cases hx : st.m_dataIndexes.lookup item.m_key with
  | none =>
    rw [hx] at hp
    cases hp
    exact Or.inl ⟨rfl, rfl, rfl⟩
  | some r =>
    rw [hx] at hp
    obtain ⟨m, hm, hp⟩ := Option.bind_eq_some_iff.mp hp
    obtain ⟨ws, size, free, p, hw, hplaced⟩ := writeBlocks_spec cfg.ReallocSize h.size_eq
      h.size_nonneg h.noEmpty (h.tiles_others hx) (h.entry _ r hx) hm
    rw [hw, Option.bind_eq_bind, Option.bind_some] at hp
    dsimp only at hp
    obtain ⟨⟨st1, r1⟩, hu, hp⟩ := Option.bind_eq_some_iff.mp hp
    cases hp
    obtain ⟨index, file, log, offset, number, hst1, hr1⟩ := updateIndex_cases hu
    refine Or.inr ⟨r, m, r1, ws, size, free, p, index, file, log, ⟨hx, hm, hplaced,
      ⟨offset, number, hr1⟩, ⟨st1, hu, ?_, ?_, ?_⟩, ?_⟩, rfl⟩
    · rw [hst1]
    · rw [hst1]
    · rw [hst1]
    · rw [hst1]
      rfl

end DataInv

namespace ItemDone

variable {sh : Shared} {cfg : DiskCfg} {st st' : Storage} {x : UInt64} {r r' : RecordIndex}
  {m : Blman} {other : List Region} {ws : List FileWrite} {size : Int} {free : FreeSpaceBlockMap}
  {p : Int} {index : IndexBlock} {file : IndexFile} {log : List FileWrite}

/-- The blocks in memory and in the file are the same after an item. -/
theorem stored (h : ItemDone sh cfg st x r m other st' r' ws size free p index file log)
    (hinv : m.Inv) :
    Stored st'.files.data r'.m_recordStart r'.m_blockCount m.clearDirtyFlags.blocks := by
  obtain ⟨offset, number, rfl⟩ := h.entry
  have hc := hinv.clearDirtyFlags
  refine ⟨?_, hc.sound, hc.nonempty, hc.count_lt⟩
  rw [h.store]
  show (ws.foldl Files.apply st.files).data.fread p m.clearDirtyFlags.blockCount = _
  rw [Blman.clearDirtyFlags_blockCount]
  exact h.placed.read

/-- What the record of the entry says is in the file. -/
theorem intact (h : ItemDone sh cfg st x r m other st' r' ws size free p index file log)
    (hinv : m.Inv) : Intact sh st'.files.data (r'.toDREC x) m.clearDirtyFlags.blocks := by
  have hst := h.stored hinv
  obtain ⟨offset, number, rfl⟩ := h.entry
  exact ⟨hst, rfl⟩

theorem entryOk (h : ItemDone sh cfg st x r m other st' r' ws size free p index file log)
    (hinv : m.Inv) : EntryOk st'.files.data (clearQueued st x r') := by
  have hst := h.stored hinv
  obtain ⟨offset, number, rfl⟩ := h.entry
  rw [clearQueued]
  split
  all_goals
    refine ⟨?_, fun _ => ⟨_, hst, ?_⟩, fun hrel => by cases hrel⟩
    · rintro m' ⟨⟩
      exact hinv.clearDirtyFlags
    · rintro m' ⟨⟩
      exact ⟨DirtyFrame.refl _, rfl⟩

/-- The region of the entry is the one that was written. -/
theorem region_eq (h : ItemDone sh cfg st x r m other st' r' ws size free p index file log) :
    r'.region = DataFile.blocksAt p m.blockCount := by
  obtain ⟨offset, number, rfl⟩ := h.entry
  show Region.mk p _ = Region.mk p _
  rw [← Blman.clearDirtyFlags_blockCount m]
  rfl

theorem start_nonneg (h : ItemDone sh cfg st x r m other st' r' ws size free p index file log) :
    0 ≤ r'.m_recordStart := by
  obtain ⟨offset, number, rfl⟩ := h.entry
  exact (DataFile.fread_eq_some.mp h.placed.read).1.1

theorem usedRegion (h : ItemDone sh cfg st x r m other st' r' ws size free p index file log) :
    usedRegion r' = [DataFile.blocksAt p m.blockCount] := by
  have hstart := h.start_nonneg
  rw [DiskWriter.usedRegion, if_pos (by omega), h.region_eq]

theorem clearQueued_place (st : Storage) (x : UInt64) (r : RecordIndex) :
    r.SamePlace (clearQueued st x r) := by
  rw [clearQueued]
  split
  all_goals exact ⟨rfl, rfl, rfl, rfl⟩

/-- Nothing but the region of the item was written. -/
theorem onlyIn (h : ItemDone sh cfg st x r m other st' r' ws size free p index file log) :
    DataFile.OnlyIn (DataFile.blocksAt p m.blockCount) st.files.data st'.files.data := by
  rw [h.store]
  exact h.placed.confined.onlyIn

/-- The index file does not get shorter. -/
theorem length_le (h : ItemDone sh cfg st x r m other st' r' ws size free p index file log) :
    st.files.index.length ≤ st'.files.index.length := by
  obtain ⟨st1, hu, -, rfl, -⟩ := h.written
  have hlen := updateIndex_length hu
  have hfile : (st.wrote ws size free).files.index = st.files.index := h.placed.confined.index_eq
  rw [hfile] at hlen
  rw [h.store]
  exact hlen

/-- The regions of the others are apart from the one that was written. -/
theorem apart (h : ItemDone sh cfg st x r m other st' r' ws size free p index file log)
    {reg : Region} (hreg : reg ∈ other) : reg.Apart (DataFile.blocksAt p m.blockCount) := by
  have ht := h.placed.tiles
  rw [← List.append_assoc] at ht
  exact ht.apart_of_mem hreg

end ItemDone

namespace DataInv

variable {sh : Shared} {cfg : DiskCfg} {st st' : Storage} {deleting : List RecordIndex}
  {toAdd toAdd' lost : List Region} {x : UInt64} {r r' : RecordIndex}
  {m : Blman} {ws : List FileWrite} {size : Int} {free : FreeSpaceBlockMap}
  {p : Int} {index : IndexBlock} {file : IndexFile} {log : List FileWrite}

/-- What another X has is among the regions of the others. -/
theorem mem_others (h : DataInv st deleting toAdd lost) {y : UInt64} {ry : RecordIndex}
    (hne : y ≠ x) (hy : st.m_dataIndexes.lookup y = some ry) (hrel : ry.relocateBlocks = false) :
    ry.region ∈ others st x deleting toAdd lost := by
  refine List.mem_append_right _ (List.mem_append_left _ (List.mem_append_left _ ?_))
  refine KeyMap.mem_collect.mpr ⟨y, ry, ?_, ?_⟩
  · rw [AList.lookup_erase_ne hne]
    exact hy
  · rw [(h.entry y ry hy).usedRegion hrel]
    exact List.mem_singleton_self _

theorem itemDone (h : DataInv st deleting toAdd lost)
    (hi : ItemDone sh cfg st x r m (others st x deleting toAdd lost) st' r' ws size free p index
      file log) : DataInv st' deleting (toAdd ++ givenUp r) lost := by
  have hinv := (h.entry x r hi.lookup).manager m hi.manager
  have hentry := hi.entryOk hinv
  have honly := hi.onlyIn
  have hstore := hi.store
  refine ⟨?_, ?_, ?_, ?_, ?_⟩
  · rw [hstore]
    exact hi.placed.size_eq
  · rw [hstore]
    exact h.size_nonneg.trans hi.placed.size_le
  · rw [hstore]
    exact hi.placed.noEmpty
  · rw [hstore]
    refine hi.placed.tiles.perm (List.Perm.append_left _ ?_)
    have hheld : held usedRegion (st.itemDone x r r' ws size free index file log) deleting
        = usedRegion r' ++ (KeyMap.collect (fun _ => usedRegion) (st.m_dataIndexes.erase x)
          ++ queued usedRegion st deleting) := by
      show KeyMap.collect _ (st.m_dataIndexes.insert x _) ++ queued usedRegion st deleting = _
      rw [KeyMap.collect_insert, usedRegion_place.same _ _ (ItemDone.clearQueued_place st x r'),
        List.append_assoc]
    rw [hheld, hi.usedRegion, others, List.perm_iff_count]
    intro reg
    simp only [List.count_append, List.count_cons, List.count_nil]
    omega
  · intro y ry hy
    have hy' : (st.m_dataIndexes.insert x (clearQueued st x r')).lookup y = some ry := by
      rw [hstore] at hy
      exact hy
    rcases Effect.lookup_insert_cases hy' with ⟨rfl, rfl⟩ | ⟨hne, hold⟩
    · exact hentry
    · exact (h.entry y ry hold).onlyIn honly fun hrel => hi.apart (h.mem_others hne hold hrel)

end DataInv

/-! ## The index of an item -/

/-- The calls that change the index file while one record of it is written: none,
or one. -/
def IndexWrites (before : IndexFile) (iw : List FileWrite) (after : IndexFile) : Prop :=
  (iw = [] ∧ after = before) ∨ ∃ n b, iw = [.index n b] ∧ after = before.putBlock n b

theorem IndexFile.WroteBlock.writes {before after : IndexFile} {n : ℕ}
    (h : before.WroteBlock n after) :
    IndexWrites before ((after[n]?).toList.map (.index n)) after := by
  obtain ⟨b, hb, hafter⟩ := h
  refine Or.inr ⟨n, b, ?_, hafter⟩
  rw [hb]
  rfl

theorem IndexWrites.foldl {f : Files} {iw : List FileWrite} {after : IndexFile}
    (h : IndexWrites f.index iw after) : iw.foldl Files.apply f = ⟨f.data, after⟩ := by
  rcases h with ⟨rfl, rfl⟩ | ⟨n, b, rfl, rfl⟩
  · rfl
  · rfl

/-- `updateIndex` of an entry with the slot it has, or with none: in the file the
record is replaced, or added. -/
theorem updateIndex_spec (st : Storage) (x : UInt64) (r : RecordIndex) (cacheSize : ℕ)
    (hib : st.m_pDataIndexDiskWriter.Inv st.files.index) (hlt : st.files.index.length < 2 ^ 20)
    (hcount : 1 ≤ r.m_blockCount)
    (hslot : ∀ slot, r.slot = some slot → ∃ d,
      (slot, d) ∈ IndexBlock.fileEntries 0 st.files.index ∧ (r.dirty = false → d = r.toDREC x))
    (hnone : r.slot = none → r.m_IB_recordOffset = -1 ∧ r.dirty = true) :
    ∃ index file iw slot r' rest,
      updateIndex cacheSize st x r = some ({ st with
        m_pDataIndexDiskWriter := index
        files := { st.files with index := file }
        trace := { st.trace with writes := st.trace.writes ++ iw } }, r')
      ∧ index.Inv file ∧ IndexWrites st.files.index iw file ∧ r'.slot = some slot
      ∧ (IndexBlock.fileEntries 0 file).Perm ((slot, r'.toDREC x) :: rest)
      ∧ ((∃ d, r.slot = some slot
            ∧ (IndexBlock.fileEntries 0 st.files.index).Perm ((slot, d) :: rest))
        ∨ r.slot = none ∧ (IndexBlock.fileEntries 0 st.files.index).Perm rest) := by
  cases hs : r.slot with
  | none =>
    obtain ⟨hoff, hd⟩ := hnone hs
    obtain ⟨ib', file', n, j, hw, hj, hinv', hwrote, hperm⟩ :=
      hib.write_new hlt cacheSize x hoff hcount st.m_pDataIndexDiskWriter.m_freeBlocks.card
    refine ⟨ib', file', _, (n, j), { r with
      m_IB_blockNumber := n, m_IB_recordOffset := slotOffset j, dirty := false },
      IndexBlock.fileEntries 0 st.files.index, ?_, hinv', hwrote.writes,
      RecordIndex.slot_of_offset hj rfl rfl, hperm, Or.inr ⟨rfl, List.Perm.refl _⟩⟩
    rw [updateIndex, if_pos hd, IndexBlock.writeRecordIndex, hw]
    rfl
  | some slot =>
    obtain ⟨n, j⟩ := slot
    obtain ⟨d, hmem, hsame⟩ := hslot (n, j) hs
    obtain ⟨hnum, hoff⟩ := RecordIndex.slot_eq_some hs
    by_cases hd : r.dirty = true
    · obtain ⟨ib', file', rest, hw, hinv', hwrote, hold, hnew⟩ :=
        hib.rewrite cacheSize x hmem hnum hoff hcount st.m_pDataIndexDiskWriter.m_freeBlocks.card
      refine ⟨ib', file', _, (n, j), { r with dirty := false }, rest, ?_, hinv', hwrote.writes, hs,
        hnew, Or.inl ⟨d, rfl, hold⟩⟩
      rw [updateIndex, if_pos hd, IndexBlock.writeRecordIndex, hw, ← hnum]
      rfl
    · have hd' := Bool.eq_false_iff.mpr hd
      obtain ⟨pre, post, hsplit⟩ := List.append_of_mem hmem
      have hrest : (IndexBlock.fileEntries 0 st.files.index).Perm (((n, j), d) :: (pre ++ post)) := by
        rw [hsplit]
        exact List.perm_middle
      refine ⟨st.m_pDataIndexDiskWriter, st.files.index, [], (n, j), r, pre ++ post, ?_, hib,
        Or.inl ⟨rfl, rfl⟩, hs, ?_, Or.inl ⟨d, rfl, hrest⟩⟩
      · rw [updateIndex, if_neg hd, List.append_nil]
      · rw [← hsame hd']
        exact hrest

/-- The records of the index file around an item: that of its X is replaced or added,
and the regions of the others are apart from the one that was written. -/
structure ItemRecords (st : Storage) (x : UInt64) (r r' : RecordIndex) (reg : Region)
    (file : IndexFile) (iw : List FileWrite) (slot : ℕ × ℕ) (rest : List ((ℕ × ℕ) × DREC)) :
    Prop where
  writes : IndexWrites st.files.index iw file
  slot_eq : r'.slot = some slot
  after : (IndexBlock.fileEntries 0 file).Perm ((slot, r'.toDREC x) :: rest)
  before : (IndexBlock.fileEntries 0 st.files.index).Perm (r.slotEntry x ++ rest)
  stays : ∀ s, r.slot = some s → s = slot
  apart : ∀ e ∈ rest, e.2.region.Apart reg

namespace StorageInv

variable {sh : Shared} {cfg : DiskCfg} {st st' : Storage} {deleting : List RecordIndex}
  {toAdd : List Region} {lost : List ((ℕ × ℕ) × Region)} {x : UInt64} {r r' : RecordIndex}
  {m : Blman} {ws : List FileWrite} {size : Int} {free : FreeSpaceBlockMap}
  {p : Int} {index : IndexBlock} {file : IndexFile} {log : List FileWrite}

/-- An item is written to the index: which calls this takes, and what the file holds
then. -/
theorem updateIndex_item (h : StorageInv sh st deleting toAdd lost)
    (hlt : st.files.index.length < 2 ^ 20) (hx : st.m_dataIndexes.lookup x = some r)
    (hm : r.m_pBlockManager = some m)
    (hplaced : Placed st r m (others st x deleting toAdd (lost.map Prod.snd)) ws size free p)
    (cacheSize : ℕ) :
    ∃ index file iw slot r' rest,
      updateIndex cacheSize (st.wrote ws size free) x (itemEntry sh r m p)
        = some ({ st.wrote ws size free with
          m_pDataIndexDiskWriter := index
          files := { (st.wrote ws size free).files with index := file }
          trace := { (st.wrote ws size free).trace with
            writes := (st.wrote ws size free).trace.writes ++ iw } }, r')
      ∧ index.Inv file ∧ IndexWrites st.files.index iw file ∧ r'.slot = some slot
      ∧ (IndexBlock.fileEntries 0 file).Perm ((slot, r'.toDREC x) :: rest)
      ∧ (IndexBlock.fileEntries 0 st.files.index).Perm (r.slotEntry x ++ rest)
      ∧ ∀ s, r.slot = some s → s = slot := by
  have hr := h.data.entry x r hx
  have hslotok := h.index.live x r hx
  have hinv := hr.manager m hm
  have hfile : (st.wrote ws size free).files.index = st.files.index := hplaced.confined.index_eq
  have hslot' : (itemEntry sh r m p).slot = r.slot := rfl
  have hcount : 1 ≤ (itemEntry sh r m p).m_blockCount :=
    List.length_pos_iff.mpr hinv.clearDirtyFlags.nonempty
  have hspec := updateIndex_spec (st.wrote ws size free) x (itemEntry sh r m p) cacheSize
    (by rw [hfile]; exact h.index.index) (by rw [hfile]; exact hlt) hcount ?_ ?_
  · obtain ⟨index, file, iw, slot, r', rest, hu, hinv', hiw, hs, hnew, hold⟩ := hspec
    rw [hfile] at hiw hold
    refine ⟨index, file, iw, slot, r', rest, hu, hinv', hiw, hs, hnew, ?_⟩
    rw [hslot'] at hold
    rcases hold with ⟨d, hsome, hperm⟩ | ⟨hnone, hperm⟩
    · have hd : (slot, d) = (slot, r.toDREC x) :=
        IndexInv.slot_unique (hperm.mem_iff.mpr List.mem_cons_self)
          (hslotok.written slot hsome) rfl
      refine ⟨?_, fun s hs' => ?_⟩
      · rw [RecordIndex.slotEntry_eq hsome, ← hd]
        exact hperm
      · rw [hsome] at hs'
        exact (Option.some.inj hs').symm
    · refine ⟨?_, fun s hs' => ?_⟩
      · rw [RecordIndex.slotEntry, hnone]
        exact hperm
      · rw [hnone] at hs'
        cases hs'
  · -- the record in the file, if the entry has not changed
    intro slot hsome
    refine ⟨r.toDREC x, ?_, fun hclean => ?_⟩
    · rw [hfile]
      exact hslotok.written slot hsome
    · have hd : (r.dirty || r.m_crc32 != Blman.blocksCrc32 sh m.clearDirtyFlags.blocks) = false :=
        hclean
      rw [Bool.or_eq_false_iff] at hd
      have hrel : r.relocateBlocks = false := by
        by_contra hne
        have hdirty := hr.dirty (by rwa [Bool.not_eq_false] at hne)
        rw [hd.1] at hdirty
        cases hdirty
      have hreg := hplaced.stays hrel
      have hcrc : r.m_crc32 = Blman.blocksCrc32 sh m.clearDirtyFlags.blocks := by
        have := hd.2
        rwa [bne_eq_false_iff_eq] at this
      have hstart : p = r.m_recordStart := congrArg Region.pos hreg
      obtain ⟨bs, -, hframe⟩ := hr.stored hrel
      have hcnt : m.clearDirtyFlags.blockCount = r.m_blockCount := by
        rw [Blman.clearDirtyFlags_blockCount]
        exact (hframe m hm).2
      show DREC.mk x r.m_recordStart r.m_crc32 r.m_blockCount
        = DREC.mk x p (Blman.blocksCrc32 sh m.clearDirtyFlags.blocks) m.clearDirtyFlags.blockCount
      rw [hstart, hcrc, hcnt]
  · intro hnone
    have hstart := hslotok.placed hnone
    refine ⟨hstart.2, ?_⟩
    have hrel : r.relocateBlocks = true := by
      by_contra hne
      have h0 := hr.start_nonneg (Bool.eq_false_iff.mpr hne)
      rw [hstart.1] at h0
      omega
    show (r.dirty || _) = true
    rw [hr.dirty hrel]
    rfl

/-- What the records besides that of `x` have is among the regions of the others. -/
theorem region_mem_others (h : StorageInv sh st deleting toAdd lost)
    (hx : st.m_dataIndexes.lookup x = some r) {rest : List ((ℕ × ℕ) × DREC)}
    (hrest : (IndexBlock.fileEntries 0 st.files.index).Perm (r.slotEntry x ++ rest)) :
    ∀ e ∈ rest, e.2.region ∈ others st x deleting toAdd (lost.map Prod.snd) := by
  have hslot : ((r.slotEntry x).map fun e => e.2.region) = usedRegion r := by
    cases hs : r.slot with
    | none =>
      have hstart := ((h.index.live x r hx).placed hs).1
      rw [RecordIndex.slotEntry, hs, usedRegion, if_neg (not_not_intro hstart)]
      rfl
    | some slot =>
      have howned := h.index.owned_live hx
      rw [owned_eq hs] at howned
      rw [RecordIndex.slotEntry_eq hs, ← howned]
      rfl
  have hall := h.index.regions_perm
  have hregs := hrest.map fun e => e.2.region
  have hheld := held_perm usedRegion deleting hx
  have hp : (rest.map fun e => e.2.region).Perm
      (KeyMap.collect (fun _ => usedRegion) (st.m_dataIndexes.erase x)
        ++ queued usedRegion st deleting ++ lost.map Prod.snd) := by
    rw [List.map_append, hslot] at hregs
    rw [List.perm_iff_count] at hall hregs hheld ⊢
    intro reg
    have h1 := hall reg
    have h2 := hregs reg
    have h3 := hheld reg
    simp only [List.count_append] at h1 h2 h3 ⊢
    omega
  intro e he
  exact List.mem_append_right _ (hp.mem_iff.mp (List.mem_map.mpr ⟨e, he, rfl⟩))

/-- Which records there are around an item, and its calls. -/
theorem itemRecords (h : StorageInv sh st deleting toAdd lost)
    (hlt : st.files.index.length < 2 ^ 20)
    (hi : ItemDone sh cfg st x r m (others st x deleting toAdd (lost.map Prod.snd)) st' r' ws size
      free p index file log) :
    ∃ iw slot rest, ItemRecords st x r r' (DataFile.blocksAt p m.blockCount) file iw slot rest
      ∧ index.Inv file ∧ log = st.trace.writes ++ (ws ++ iw) := by
  obtain ⟨index', file', iw, slot, r'', rest, hu, hinv', hiw, hs, hnew, hold, hstay⟩ :=
    h.updateIndex_item hlt hi.lookup hi.manager hi.placed cfg.IndexBlockCacheSize
  obtain ⟨st1, hu', rfl, rfl, rfl⟩ := hi.written
  rw [hu] at hu'
  cases hu'
  refine ⟨iw, slot, rest, ⟨hiw, hs, hnew, hold, hstay, ?_⟩, hinv', ?_⟩
  · intro e he
    exact hi.apart (h.region_mem_others hi.lookup hold e he)
  · show (st.wrote ws size free).trace.writes ++ iw = _
    exact List.append_assoc _ _ _

/-- An item keeps the invariant. Its calls are those of `Placed`, and at most one that
writes the record. -/
theorem itemDone (h : StorageInv sh st deleting toAdd lost)
    (hlt : st.files.index.length < 2 ^ 20)
    (hi : ItemDone sh cfg st x r m (others st x deleting toAdd (lost.map Prod.snd)) st' r' ws size
      free p index file log) :
    StorageInv sh st' deleting (toAdd ++ givenUp r) lost
      ∧ (∀ s, r.slot = some s → r'.slot = some s)
      ∧ ∃ iw, IndexWrites st.files.index iw file ∧ log = st.trace.writes ++ (ws ++ iw) := by
  obtain ⟨iw, slot, rest, hrec, hinv', hlog⟩ := h.itemRecords hlt hi
  have hs := hrec.slot_eq
  have hnew := hrec.after
  have hold := hrec.before
  have hr := h.data.entry x r hi.lookup
  have hintact := hi.intact (hr.manager m hi.manager)
  have honly := hi.onlyIn
  have hdata := h.data.itemDone hi
  have hstore := hi.store
  refine ⟨⟨hdata, ?_⟩, ?_, iw, hrec.writes, hlog⟩
  · subst hstore
    refine ⟨hinv', ?_, ?_, h.index.gone, h.index.taken, ?_⟩
    · show ((IndexBlock.fileEntries 0 file).map located).Perm
        (KeyMap.collect _ (st.m_dataIndexes.insert x _) ++ queued owned st deleting ++ lost)
      rw [KeyMap.collect_insert, owned_place.same _ _ (ItemDone.clearQueued_place st x r'),
        owned_eq hs]
      have hslot : (r.slotEntry x).map located = owned r := by
        rw [RecordIndex.slotEntry, owned]
        cases r.slot with
        | none => rfl
        | some s => rfl
      have hall := h.index.claims
      have hold' := hold.map located
      have hnew' := hnew.map located
      have hheld := held_perm owned deleting hi.lookup
      rw [List.map_append, hslot] at hold'
      rw [List.perm_iff_count] at hall hold' hnew' hheld ⊢
      intro c
      have h1 := hall c
      have h2 := hold' c
      have h3 := hheld c
      have h4 := hnew' c
      have hloc : located (slot, r'.toDREC x) = (slot, r'.region) := rfl
      rw [List.map_cons, hloc, List.count_cons] at h4
      simp only [List.count_append, List.count_cons, List.count_nil] at h1 h2 h3 ⊢
      omega
    · intro y ry hy
      rcases Effect.lookup_insert_cases hy with ⟨rfl, rfl⟩ | ⟨hne, hy'⟩
      · have hself : SlotOk file y r' := by
          refine ⟨fun hnone => ?_, fun s hsome => ?_⟩
          · rw [hs] at hnone
            cases hnone
          · rw [hs] at hsome
            cases hsome
            exact hnew.mem_iff.mpr List.mem_cons_self
        refine hself.same (ItemDone.clearQueued_place st y r') ?_
        rw [clearQueued]
        split
        all_goals rfl
      · have hsy := h.index.live y ry hy'
        refine ⟨hsy.placed, fun s hsome => hnew.mem_iff.mpr (List.mem_cons_of_mem _ ?_)⟩
        have hmem := hold.mem_iff.mp (hsy.written s hsome)
        refine (List.mem_append.mp hmem).resolve_left fun hx => ?_
        exact hne (IndexBlock.Client.slotEntry_key hx)
    · intro e he
      rcases List.mem_cons.mp (hnew.mem_iff.mp he) with rfl | hrest
      · exact ⟨m.clearDirtyFlags.blocks, hintact⟩
      · obtain ⟨bs, hbs⟩ := h.index.intact e (hold.mem_iff.mpr (List.mem_append_right _ hrest))
        exact ⟨bs, hbs.onlyIn honly (hrec.apart e hrest)⟩
  · intro s hsome
    rw [hs, hrec.stays s hsome]

end StorageInv

end TransDB
