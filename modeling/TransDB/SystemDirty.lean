/-
Writing the dirty blocks is enough.

`WriteDataWithoutRelocateFlag` leaves out the blocks whose flag is clear. They are in the
file already, flag and all, so the file is afterwards what it would be if all of them had
been written. The CRC of an X is computed from blocks without flags, in both ways of
writing them; `CheckBlockManager` and the check at the start compute it again from the
file.

The record of the X is another matter: one in a block of the index from number `2 ^ 20` on
is rewritten at the beginning of the index file.
-/
import TransDB.SystemQueue

set_option autoImplicit false

namespace TransDB

open ByteList DiskWriter Storage

/-! ## The checks -/

namespace Storage

variable (sh : Shared)

/-- Whether `CheckBlockManager` logs an error; `none` as there. -/
def CheckBlockManagerError (self : Storage) (r : RecordIndex) : Option Bool :=
  match r.m_pBlockManager with
  | some _ => some false
  | none =>
    --this cannot happen, else it causes a crash
    if r.relocateBlocks then some true
    else do
      let pBlocks ← self.files.data.fread r.m_recordStart r.m_blockCount
      let m ← Blman.create (some pBlocks)
      --check crc32
      return r.m_crc32 != Blman.blocksCrc32 sh m.blocks

/-- One turn of the loop of `StorageCrc32Check`: whether it logs an error. -/
def crc32Error (self : Storage) (x : UInt64) : Option Bool :=
  match self.m_dataIndexes.lookup x with
  | none => some false
  | some r => do
    --read all blocks in one IO
    let pBlocks ← self.files.data.fread r.m_recordStart r.m_blockCount
    --check crc32
    return r.m_crc32 != Blman.blocksCrc32 sh pBlocks

/-- `Storage::Crc32Check`: the X it logs an error for. `rInfo` are the entries in the order of
its sort. -/
def Crc32Check (self : Storage) : List WriteInfo → Option (List UInt64)
  | [] => some []
  | rWriteInfo :: rInfo => do
    let error ← self.crc32Error sh rWriteInfo.m_key
    let errors ← self.Crc32Check rInfo
    return if error then rWriteInfo.m_key :: errors else errors

end Storage

/-! ## The file after the dirty blocks -/

namespace DataFile

/-- Two files that agree on a region, and outside of it with a third one. -/
theorem OnlyIn.fread_eq {f g k : DataFile} {pos : Int} {n : ℕ} {bs : List Block}
    (hg : OnlyIn (blocksAt pos n) f g) (hk : OnlyIn (blocksAt pos n) f k)
    (hgsize : g.size = f.size) (hksize : k.size = f.size) (hgread : g.fread pos n = some bs)
    (hkread : k.fread pos n = some bs) (q : Int) (c : ℕ) : g.fread q c = k.fread q c := by
  obtain ⟨-, -, hgblock⟩ := fread_eq_some.mp hgread
  obtain ⟨-, -, hkblock⟩ := fread_eq_some.mp hkread
  have hbytes : ∀ p, 0 ≤ p → p < f.size → g.bytes p = k.bytes p := by
    intro p h0 hp
    by_cases hin : (blocksAt pos n).Mem p
    · obtain ⟨hlo, hhi⟩ : pos ≤ p ∧ p < pos + n * BLOCK_SIZE := hin
      -- the byte `j` of the block `i`
      obtain ⟨i, j, hi, hj, rfl⟩ : ∃ i j : ℕ, i < n ∧ j < BLOCK_SIZE
          ∧ p = pos + i * BLOCK_SIZE + j := by
        have hk : (p - pos).toNat < BLOCK_SIZE * n := by
          have hcast : ((BLOCK_SIZE * n : ℕ) : Int) = n * BLOCK_SIZE := by
            rw [Int.natCast_mul, Int.mul_comm]
          omega
        have hdiv := Nat.mod_add_div' (p - pos).toNat BLOCK_SIZE
        refine ⟨(p - pos).toNat / BLOCK_SIZE, (p - pos).toNat % BLOCK_SIZE,
          Nat.div_lt_of_lt_mul hk, Nat.mod_lt _ (by decide), ?_⟩
        have hcast : ((_ : ℕ) : Int) = ((p - pos).toNat : ℕ) := congrArg Nat.cast hdiv
        rw [Nat.cast_add, Nat.cast_mul] at hcast
        omega
      have hsame : g.block (pos + i * BLOCK_SIZE) = k.block (pos + i * BLOCK_SIZE) :=
        Option.some.inj ((hgblock i hi).symm.trans (hkblock i hi))
      have hbyte := congrArg (fun b => b.bytes[j]?) hsame
      simp only [block_getElem _ _ hj] at hbyte
      exact Option.some.inj hbyte
    · rw [hg.bytes p h0 hp hin, hk.bytes p h0 hp hin]
  rw [DataFile.fread, DataFile.fread, hgsize, hksize]
  split
  case isFalse => rfl
  case isTrue hq =>
    refine congrArg some (List.map_congr_left fun i hi => block_congr fun p hlo hhi => ?_)
    have hoff := offset_le (List.mem_range.mp hi)
    exact hbytes p (by omega) (by omega)

end DataFile

/-! ## One X -/

/-- What `WriteDataWithoutRelocateFlag` leaves of an X: its manager without dirty flags, and
the same blocks in the file. -/
structure WrittenInPlace (st : Storage) (r : RecordIndex) (m : Blman) (st' : Storage)
    (r' : RecordIndex) (m' : Blman) : Prop where
  manager : m' = m.clearDirtyFlags
  entry : r' = { r with m_pBlockManager := some m' }
  clean : ∀ b ∈ m'.blocks, b.isDirty = false
  count : m'.blockCount = r.m_blockCount
  read : st'.files.data.fread r.m_recordStart r.m_blockCount = some m'.blocks
  /-- The file is as if all of them had been written. -/
  all : ∀ pos n, st'.files.data.fread pos n
    = (st.files.data.fwrite r.m_recordStart (m'.blocks.flatMap Block.bytes)).fread pos n

/-- What is known of an X whose blocks have a place: they have the CRC of the entry, and so
says the record in its slot. -/
structure Checked (sh : Shared) (st : Storage) (x : UInt64) (r : RecordIndex) (bs : List Block) :
    Prop where
  read : st.files.data.fread r.m_recordStart r.m_blockCount = some bs
  crc : r.m_crc32 = Blman.blocksCrc32 sh bs
  record : ∃ slot, r.slot = some slot
    ∧ (slot, r.toDREC x) ∈ IndexBlock.fileEntries 0 st.files.index

theorem Blman.Inv.clearDirtyFlags_clean {m : Blman} (h : m.Inv) :
    ∀ b ∈ m.clearDirtyFlags.blocks, b.isDirty = false := by
  intro c hc
  obtain ⟨b, hb, rfl⟩ := List.mem_map.mp hc
  exact (h.valid b hb).clearDirty_clean

/-- Blocks without dirty flags are those of the file. -/
theorem DirtyFrame.eq_of_clean {bs blocks : List Block} (h : DirtyFrame bs blocks)
    (hlen : bs.length = blocks.length) (hclean : ∀ b ∈ blocks, b.isDirty = false) :
    bs = blocks := by
  refine List.ext_getElem? fun i => ?_
  cases hb : blocks[i]? with
  | none =>
    rw [List.getElem?_eq_none_iff] at hb ⊢
    omega
  | some b =>
    refine (h i b hb).resolve_right ?_
    rw [hclean b (List.mem_of_getElem? hb)]
    exact Bool.false_ne_true

/-- An X whose flag `eRIF_RelocateBlocks` is clear. -/
theorem EntryOk.writtenInPlace {st : Storage} {r : RecordIndex} {m : Blman}
    (h : EntryOk st.files.data r) (hm : r.m_pBlockManager = some m)
    (hrel : r.relocateBlocks = false) :
    ∃ st' r' m', WriteDataWithoutRelocateFlag st r m = (st', r', m')
      ∧ WrittenInPlace st r m st' r' m' := by
  have hinv := h.manager m hm
  obtain ⟨bs, hst, hframe⟩ := h.stored hrel
  obtain ⟨hdirty, hcount⟩ := hframe m hm
  obtain ⟨⟨hstart, hin⟩, hbs, -⟩ := DataFile.fread_eq_some.mp hst.read
  have hlen : bs.length = m.blocks.length := hbs.trans hcount.symm
  have hle : 0 + m.blocks.length ≤ r.m_blockCount := by rw [Nat.zero_add, ← hlen, hbs]
  have hread := fread_dirtyWrites m.blocks [] bs st.files hst.read hlen
  rw [landed_eq hdirty hlen hinv.valid] at hread
  have hclear : m.clearDirtyFlags.blocks.length = r.m_blockCount :=
    (Blman.clearDirtyFlags_blockCount m).trans hcount
  have hbytes : (m.clearDirtyFlags.blocks.flatMap Block.bytes).length
      = r.m_blockCount * BLOCK_SIZE := by rw [DataFile.length_flatMap_bytes, hclear]
  -- what is written when all blocks are
  have hwhole := DataFile.fread_fwrite_self st.files.data m.clearDirtyFlags.blocks hstart
  rw [hclear] at hwhole
  have hsize : (st.files.data.fwrite r.m_recordStart
      (m.clearDirtyFlags.blocks.flatMap Block.bytes)).size = st.files.data.size := by
    show max st.files.data.size (r.m_recordStart + (_ : ℕ)) = st.files.data.size
    rw [hbytes, Int.natCast_mul]
    omega
  refine ⟨(dirtyWrites r.m_recordStart 0 m.blocks).foldl Storage.write st,
    { r with m_pBlockManager := some m.clearDirtyFlags }, m.clearDirtyFlags, ?_, rfl, rfl,
    hinv.clearDirtyFlags_clean, hclear, ?_, fun pos n => ?_⟩
  · rw [WriteDataWithoutRelocateFlag, writeDirtyLoop_eq, flushed_eq hinv.valid]
    rfl
  · rw [Storage.foldl_write]
    exact hread
  · rw [Storage.foldl_write]
    refine DataFile.OnlyIn.fread_eq (confined_dirtyWrites m.blocks 0 st.files hle).onlyIn
      (DataFile.OnlyIn.fwrite _ ?_) (size_dirtyWrites m.blocks 0 st.files hle hin) hsize hread
      hwhole pos n
    rw [hbytes, Int.natCast_mul]
    exact ⟨Int.le_refl _, Int.le_refl _⟩

/-- The blocks of an X that has a place, in the file and in the index. -/
theorem StorageInv.checked {sh : Shared} {st : Storage} {deleting : List RecordIndex}
    {toAdd : List Region} {lost : List ((ℕ × ℕ) × Region)}
    (h : StorageInv sh st deleting toAdd lost) {x : UInt64} {r : RecordIndex}
    (hx : st.m_dataIndexes.lookup x = some r) (hrel : r.relocateBlocks = false) :
    ∃ bs, Checked sh st x r bs := by
  have hentry := h.data.entry x r hx
  have hslot := h.index.live x r hx
  obtain ⟨slot, hs⟩ : ∃ slot, r.slot = some slot := by
    cases hs : r.slot with
    | some slot => exact ⟨slot, rfl⟩
    | none =>
      have hstart := hentry.start_nonneg hrel
      rw [(hslot.placed hs).1] at hstart
      cases hstart
  have hrecord := hslot.written slot hs
  obtain ⟨bs, hbs⟩ := h.index.intact _ hrecord
  exact ⟨bs, hbs.stored.read, hbs.crc.symm, slot, hs, hrecord⟩

/-- The blocks of a manager that has nothing to write are those in the file. -/
theorem StorageInv.checked_clean {sh : Shared} {st : Storage} {deleting : List RecordIndex}
    {toAdd : List Region} {lost : List ((ℕ × ℕ) × Region)}
    (h : StorageInv sh st deleting toAdd lost) {x : UInt64} {r : RecordIndex} {m : Blman}
    (hx : st.m_dataIndexes.lookup x = some r) (hrel : r.relocateBlocks = false)
    (hm : r.m_pBlockManager = some m) (hclean : ∀ b ∈ m.blocks, b.isDirty = false) :
    Checked sh st x r m.blocks := by
  obtain ⟨bs, hbs⟩ := h.checked hx hrel
  obtain ⟨bs', hst, hframe⟩ := (h.data.entry x r hx).stored hrel
  have hsame := hst.read
  rw [hbs.read] at hsame
  cases hsame
  obtain ⟨hdirty, hcount⟩ := hframe m hm
  have hlen : bs.length = m.blocks.length :=
    (DataFile.fread_eq_some.mp hbs.read).2.1.trans hcount.symm
  rw [hdirty.eq_of_clean hlen hclean] at hbs
  exact hbs

/-- The check at the start finds nothing wrong with X that are in order. -/
theorem Storage.Crc32Check_none {sh : Shared} {st : Storage}
    (h : ∀ x r, st.m_dataIndexes.lookup x = some r → ∃ bs, Checked sh st x r bs)
    (rInfo : List WriteInfo) : st.Crc32Check sh rInfo = some [] := by
  induction rInfo with
  | nil => rfl
  | cons w rInfo ih =>
    have hturn : st.crc32Error sh w.m_key = some false := by
      rw [crc32Error]
      cases hx : st.m_dataIndexes.lookup w.m_key with
      | none => rfl
      | some r =>
        obtain ⟨bs, hbs⟩ := h _ r hx
        dsimp only
        rw [hbs.read, Option.bind_eq_bind, Option.bind_some, hbs.crc, bne_self_eq_false]
        rfl
    rw [Crc32Check, hturn, ih]
    rfl

section Runs

variable {sh : Shared} {st st' : Storage} {deleting : List RecordIndex} {toAdd toAdd' : List Region}
  {lost : List ((ℕ × ℕ) × Region)}

/-- An item that `Process` has handled, in one way of writing or the other. -/
theorem StorageInv.processItem_checked (h : StorageInv sh st deleting toAdd lost)
    (hsmall : st.files.index.length < 2 ^ 20) {cfg : DiskCfg} {item : WriteInfo}
    (hp : processItem sh cfg st toAdd item = some (st', toAdd'))
    (hmem : item.m_key ∈ st.m_dataIndexes) :
    ∃ r' m', st'.m_dataIndexes.lookup item.m_key = some r' ∧ r'.m_pBlockManager = some m'
      ∧ r'.relocateBlocks = false ∧ Checked sh st' item.m_key r' m'.blocks := by
  rcases h.data.processItem_cases hp with
    ⟨hnone, -⟩ | ⟨r, m, r', ws, size, free, p, index, file, log, hi, -⟩
  · rw [← AList.lookup_isSome, hnone] at hmem
    cases hmem
  have hminv := (h.data.entry _ r hi.lookup).manager m hi.manager
  have hinv' := (h.itemDone hsmall hi).1
  have hx' : st'.m_dataIndexes.lookup item.m_key = some (clearQueued st item.m_key r') := by
    rw [hi.store]
    exact AList.lookup_insert _
  have hplace := ItemDone.clearQueued_place st item.m_key r'
  have hread := (hi.stored hminv).read
  rw [← hplace.start, ← hplace.count] at hread
  have hkept : (clearQueued st item.m_key r').m_pBlockManager = some m.clearDirtyFlags
      ∧ (clearQueued st item.m_key r').relocateBlocks = false := by
    obtain ⟨offset, number, rfl⟩ := hi.entry
    rw [clearQueued]
    split
    all_goals exact ⟨rfl, rfl⟩
  obtain ⟨bs, hbs⟩ := hinv'.checked hx' hkept.2
  -- the blocks in the file are those of the manager
  obtain rfl : bs = m.clearDirtyFlags.blocks := by
    have hread' := hbs.read
    rw [hread] at hread'
    exact (Option.some.inj hread').symm
  exact ⟨_, _, hx', hkept.1, hkept.2, hbs⟩

/-- An X that has a place when its manager is loaded is loaded without an error. -/
theorem StorageInv.checkBlockManager_ok (h : StorageInv sh st deleting toAdd lost) {x : UInt64}
    {r : RecordIndex} (hx : st.m_dataIndexes.lookup x = some r)
    (hplaced : r.m_pBlockManager = none → r.relocateBlocks = false) :
    ∀ error ∈ st.CheckBlockManagerError sh r, error = false := by
  intro error herror
  rw [CheckBlockManagerError] at herror
  cases hm : r.m_pBlockManager with
  | some m =>
    rw [hm] at herror
    cases herror
    rfl
  | none =>
    rw [hm] at herror
    dsimp only at herror
    have hrel := hplaced hm
    obtain ⟨bs, hbs⟩ := h.checked hx hrel
    obtain ⟨bs', hst, -⟩ := (h.data.entry x r hx).stored hrel
    obtain rfl : bs' = bs := by
      have hread := hst.read
      rw [hbs.read] at hread
      exact (Option.some.inj hread).symm
    rw [if_neg (by rw [hrel]; exact Bool.false_ne_true), hbs.read, Option.bind_eq_bind,
      Option.bind_some] at herror
    obtain ⟨m, hc, herror⟩ := Option.bind_eq_some_iff.mp herror
    cases herror
    rw [(Blman.create_some hst.sound hst.nonempty hst.count_lt hc).2, hbs.crc,
      bne_self_eq_false]

/-- A start on the files of the store finds every X in order. -/
theorem StorageInv.start_ok (h : StorageInv sh st deleting toAdd lost) {ReallocSize : Int}
    {forceStartup : Bool} {order : List ((ℕ × ℕ) × DREC)}
    (horder : order.Perm (IndexBlock.fileEntries 0 st.files.index))
    (hinit : Storage.Init ReallocSize forceStartup order st.files = some st')
    (rInfo : List WriteInfo) : st'.Crc32Check sh rInfo = some [] := by
  obtain ⟨files, log, rfl, hf, hindex, -⟩ := Init_cases h.filesOk horder hinit
  rw [← hindex] at horder
  obtain ⟨lost', hstart⟩ := startOn_inv hf horder log
  refine Storage.Crc32Check_none (fun x r hx => hstart.checked hx ?_) rInfo
  rcases lookup_fillMap_some hx with hnone | ⟨e, -, -, rfl⟩
  · cases hnone
  · rfl

end Runs

/-! ## Every X -/

namespace Sys

variable {sh : Shared}

/-- What the dirty flags and the CRC are for. -/
structure Verified (sh : Shared) (s : Sys) : Prop where
  inPlace : ∀ x r m, s.store.m_dataIndexes.lookup x = some r → r.m_pBlockManager = some m →
    r.relocateBlocks = false →
    ∃ st' r' m', WriteDataWithoutRelocateFlag s.store r m = (st', r', m')
      ∧ WrittenInPlace s.store r m st' r' m'
  /-- An item of `Process` that has been handled, in one way of writing or the other. -/
  item : ∀ cfg item items toAdd st' toAdd', s.disk = .writing (item :: items) toAdd →
    DiskWriter.processItem sh cfg s.store toAdd item = some (st', toAdd') →
    item.m_key ∈ s.store.m_dataIndexes →
    ∃ r' m', st'.m_dataIndexes.lookup item.m_key = some r' ∧ r'.m_pBlockManager = some m'
      ∧ r'.relocateBlocks = false ∧ Checked sh st' item.m_key r' m'.blocks
  load : ∀ x r, s.store.m_dataIndexes.lookup x = some r →
    ∀ error ∈ s.store.CheckBlockManagerError sh r, error = false
  start : ∀ ReallocSize forceStartup order st rInfo,
    order.Perm (IndexBlock.fileEntries 0 s.store.files.index) →
    Storage.Init ReallocSize forceStartup order s.store.files = some st →
    st.Crc32Check sh rInfo = some []

/-- The dirty blocks are enough, and the CRC are right, in every run with an index file of
fewer than `2 ^ 20` blocks. -/
theorem dirty_blocks_suffice {s : Sys} (h : (server sh).Reach Small s)
    (hsmall : s.store.files.index.length < 2 ^ 20) : s.Verified sh := by
  obtain ⟨lost, hinv⟩ := reach_inv h
  obtain ⟨-, hq⟩ := reach_queue h
  refine ⟨?_, ?_, ?_, ?_⟩
  · intro x r m hx hm hrel
    exact (hinv.data.entry x r hx).writtenInPlace hm hrel
  · intro cfg item items toAdd st' toAdd' hdisk hp hmem
    rw [Inv, hdisk] at hinv
    exact hinv.processItem_checked hsmall hp hmem
  · intro x r hx
    refine StorageInv.checkBlockManager_ok hinv hx fun hm => ?_
    by_contra hrel
    rw [Bool.not_eq_false] at hrel
    exact hq.manager x r hx (hq.relocate x r hx hrel) hm
  · intro ReallocSize forceStartup order st rInfo horder hinit
    exact StorageInv.start_ok hinv horder hinit rInfo

/-- An X that has been flushed is written again and waits in the batch. -/
theorem dirty_blocks_suffice_batch : ∃ s, (server Shared.plain).Reach Small s
    ∧ s.disk.items.map WriteInfo.m_key = [7]
    ∧ (∃ r m, s.store.m_dataIndexes.lookup 7 = some r ∧ r.relocateBlocks = false
      ∧ r.m_pBlockManager = some m ∧ ∃ b ∈ m.blocks, b.isDirty = true)
    ∧ s.Verified Shared.plain := by
  have hrun : (fresh.bind fun s => (server Shared.plain).run smallTest s
      [put 0 7 1, .beginProcess [], .getItems [7], .processItem ⟨4096, 64⟩, .endProcess,
        put 0 7 2, .beginProcess [], .getItems [7]]).any
      (fun s => decide (s.store.files.index.length < 2 ^ 20)
        && decide (s.disk.items.map WriteInfo.m_key = [7])
        && (s.store.m_dataIndexes.lookup 7).any fun r => !r.relocateBlocks
          && r.m_pBlockManager.any fun m => m.blocks.any Block.isDirty) = true := by
    decide +kernel
  obtain ⟨s, t, hs, hsteps, ht⟩ := exists_run _ small_of_test hrun
  simp only [Bool.and_eq_true, decide_eq_true_eq] at ht
  obtain ⟨⟨hsmall, hitems⟩, ht⟩ := ht
  obtain ⟨r, hr, ht⟩ := (Option.any_eq_true _ _).mp ht
  rw [Bool.and_eq_true, Bool.not_eq_true'] at ht
  obtain ⟨hrel, ht⟩ := ht
  obtain ⟨m, hm, ht⟩ := (Option.any_eq_true _ _).mp ht
  have hreach := (Machine.Reach.init s hs).steps hsteps
  exact ⟨t, hreach, hitems, ⟨r, m, hr, hrel, hm, List.any_eq_true.mp ht⟩,
    dirty_blocks_suffice hreach hsmall⟩

end Sys

/-! ## A record in a block whose position wraps -/

/-- A record in block `n` is rewritten in the block at the position that is computed for it. -/
theorem IndexBlock.rewriteRecord_wraps {ib : IndexBlock} {file : IndexFile} {lru : LRUCache}
    {b : IndexDiskBlock} {n j : ℕ} (cacheSize : ℕ) (d : DREC)
    (hcache : ib.m_rDiskBlockCache = ∅) (hput : ib.m_pLRUCache.put (UInt64.ofNat n) = some lru)
    (hb : file[n % 2 ^ 20]? = some b) (hj : j < slotsPerBlock) :
    ∃ ib', ib.rewriteRecord cacheSize file n (slotOffset j) d
      = some (ib', file.set (n % 2 ^ 20) (b.setSlot j d)) := by
  have hpos : diskPosition n / INDEX_BLOCK_SIZE = n % 2 ^ 20 := by
    rw [diskPosition, INDEX_BLOCK_SIZE]
    omega
  have hlt : n % 2 ^ 20 < file.length := (List.getElem?_eq_some_iff.mp hb).1
  have hnone : ib.m_rDiskBlockCache.lookup n = none := by
    rw [hcache]
    exact AList.lookup_empty n
  have hroom : ¬ cacheSize < ib.m_rDiskBlockCache.entries.length * INDEX_BLOCK_SIZE := by
    rw [hcache]
    show ¬ cacheSize < 0 * INDEX_BLOCK_SIZE
    rw [Nat.zero_mul]
    exact Nat.not_lt_zero _
  have hread : IndexFile.readBlock file (diskPosition n) = some b := by
    rw [IndexFile.readBlock, hpos, hb]
  have hwrite : ∀ b', IndexFile.writeBlock file (diskPosition n) b'
      = some (file.set (n % 2 ^ 20) b') := fun b' => by
    rw [IndexFile.writeBlock, hpos, if_pos hlt]
  simp only [rewriteRecord, GetCachedDiskBlock, hnone, if_neg hroom, hread, hput,
    slotAt_slotOffset hj, hwrite, Option.bind_eq_bind, Option.bind_some, Option.pure_def]
  exact ⟨_, rfl⟩

/-- An item that is written in place, with a new CRC and a record in block `n`: the record
goes elsewhere if `n` is `2 ^ 20` or more. -/
theorem processItem_wraps {sh : Shared} {st : Storage} {cfg : DiskCfg} {toAdd : List Region}
    {item : WriteInfo} {r : RecordIndex} {m : Blman} {lru : LRUCache} {b : IndexDiskBlock}
    {n j : ℕ} (hx : st.m_dataIndexes.lookup item.m_key = some r)
    (hm : r.m_pBlockManager = some m) (hrel : r.relocateBlocks = false)
    (hslot : r.slot = some (n, j)) (hcache : st.m_pDataIndexDiskWriter.m_rDiskBlockCache = ∅)
    (hput : st.m_pDataIndexDiskWriter.m_pLRUCache.put (UInt64.ofNat n) = some lru)
    (hb : st.files.index[n % 2 ^ 20]? = some b) (hn : 2 ^ 20 ≤ n)
    (hcrc : r.m_crc32 ≠ Blman.blocksCrc32 sh (m.blocks.map Block.flushed)) :
    ∃ st' r', processItem sh cfg st toAdd item = some (st', toAdd)
      ∧ st'.m_dataIndexes.lookup item.m_key = some r' ∧ r'.slot = some (n, j)
      ∧ r'.m_crc32 ≠ r.m_crc32 ∧ st'.files.index[n]? = st.files.index[n]? := by
  obtain ⟨hnum, hoff⟩ := RecordIndex.slot_eq_some hslot
  have hj : j < slotsPerBlock := by
    rw [RecordIndex.slot, hoff] at hslot
    obtain ⟨j', hj', heq⟩ := Option.map_eq_some_iff.mp hslot
    cases heq
    exact (slotAt_eq_some hj').2
  have hne : n % 2 ^ 20 ≠ n := by
    have hlt := Nat.mod_lt n (by decide : 0 < 2 ^ 20)
    omega
  -- the blocks are written in place
  obtain ⟨m1, hm1⟩ : ∃ m1 : Blman, m1 = { m with blocks := m.blocks.map Block.flushed } := ⟨_, rfl⟩
  obtain ⟨st0, hblocks, hindex, hwriter⟩ : ∃ st0, writeBlocks cfg.ReallocSize st r m
        = some (st0, some ({ r with m_pBlockManager := some m1 }, m1, []))
      ∧ st0.files.index = st.files.index
      ∧ st0.m_pDataIndexDiskWriter = st.m_pDataIndexDiskWriter := by
    refine ⟨st.wrote (dirtyWrites r.m_recordStart 0 m.blocks) st.m_dataFileSize st.m_rFreeSpace,
      ?_, ?_, rfl⟩
    · rw [hm1, writeBlocks, if_neg (by rw [hrel]; exact Bool.false_ne_true),
        WriteDataWithoutRelocateFlag, writeDirtyLoop_eq, Storage.foldl_write]
    · exact (confined_dirtyWrites m.blocks 0 st.files (Nat.le_of_eq (Nat.zero_add _))).index_eq
  -- the record is rewritten
  obtain ⟨e, he⟩ : ∃ e, e = updateEntry sh { r with m_pBlockManager := some m1 } m1 := ⟨_, rfl⟩
  have hcrc' : e.m_crc32 = Blman.blocksCrc32 sh (m.blocks.map Block.flushed) := by
    rw [he, hm1]
    rfl
  have hdirty : e.dirty = true := by
    rw [he, hm1, updateEntry]
    show (r.dirty || r.m_crc32 != _) = true
    rw [bne_iff_ne.mpr hcrc, Bool.or_true]
  have hplace : e.m_IB_blockNumber = n ∧ e.m_IB_recordOffset = slotOffset j := by
    rw [he]
    exact ⟨hnum, hoff⟩
  obtain ⟨file, hfile⟩ : ∃ file, file
      = st.files.index.set (n % 2 ^ 20) (b.setSlot j (e.toDREC item.m_key)) := ⟨_, rfl⟩
  obtain ⟨ib, hrw⟩ := IndexBlock.rewriteRecord_wraps cfg.IndexBlockCacheSize
    (e.toDREC item.m_key) hcache hput hb hj
  have hwrite : st0.m_pDataIndexDiskWriter.writeRecordIndex cfg.IndexBlockCacheSize
      st0.files.index item.m_key e = some (ib, file, e) := by
    rw [hwriter, hindex, hfile, IndexBlock.writeRecordIndex, IndexBlock.WriteRecordIndexToDisk]
    simp only [hplace.1, hplace.2, slotOffset_ne, ne_eq, not_false_eq_true, if_true, hrw,
      Option.bind_eq_bind, Option.bind_some, Option.pure_def]
  have hupdate : updateIndex cfg.IndexBlockCacheSize st0 item.m_key e
      = some (st0.writeIndex ib file e.m_IB_blockNumber, { e with dirty := false }) := by
    rw [updateIndex, if_pos hdirty, hwrite]
    rfl
  obtain ⟨st1, hindex1, hitem⟩ : ∃ st1 : Storage, st1.files.index = file
      ∧ processItem sh cfg st toAdd item
        = some (st1.setIndex item.m_key (clearQueued st1 item.m_key { e with dirty := false }),
          toAdd) := by
    refine ⟨{ st0.writeIndex ib file e.m_IB_blockNumber with
      trace := { (st0.writeIndex ib file e.m_IB_blockNumber).trace with
        retired := (st0.writeIndex ib file e.m_IB_blockNumber).trace.retired ++ [] } }, rfl, ?_⟩
    rw [processItem, hx]
    dsimp only
    rw [hm, Option.bind_eq_bind, Option.bind_some, hblocks, Option.bind_eq_bind, Option.bind_some]
    dsimp only
    rw [← he, hupdate, Option.bind_eq_bind, Option.bind_some]
    dsimp only
    rw [List.append_nil toAdd]
    rfl
  have hsame : (clearQueued st1 item.m_key { e with dirty := false }).m_crc32 = e.m_crc32 := by
    rw [clearQueued]
    split
    all_goals rfl
  refine ⟨_, _, hitem, AList.lookup_insert _, ?_, ?_, ?_⟩
  · rw [(ItemDone.clearQueued_place st1 item.m_key { e with dirty := false }).slot_eq]
    exact RecordIndex.slot_of_offset hj hplace.1 hplace.2
  · rw [hsame, hcrc']
    exact hcrc.symm
  · show st1.files.index[n]? = st.files.index[n]?
    rw [hindex1, hfile, List.getElem?_set_ne hne]

/-! ### The CRC in numbers -/

/-- The turn of `crc32Byte` for one bit. -/
def crc32Bit (crc : ℕ) : ℕ := if crc % 2 = 1 then (crc / 2) ^^^ 0xEDB88320 else crc / 2

/-- `crc32Byte` over a list of bytes. Each value is compared with a number, so that it is known
before the next one is computed. -/
def crc32Loop : ℕ → List UInt8 → ℕ
  | crc, [] => crc
  | crc, b :: bytes =>
    let crc := Nat.iterate crc32Bit 8 (crc ^^^ b.toNat)
    if crc = 0 then crc32Loop 0 bytes else crc32Loop crc bytes

/-- `blman_get_blocks_crc32` with the CRC-32 of gzip. -/
def gzipBlocksCrc32 (blocks : List Block) : ℕ :=
  2 ^ 32 - 1 - crc32Loop 0xFFFFFFFF (blocks.flatMap fun b =>
    toLE 4 (2 ^ 32 - 1 - crc32Loop 0xFFFFFFFF b.bytes))

theorem toNat_crc32Byte (crc : UInt32) (b : UInt8) :
    (crc32Byte crc b).toNat = Nat.iterate crc32Bit 8 (crc.toNat ^^^ b.toNat) := by
  have hbit : ∀ c : UInt32, (if c &&& 1 = 1 then (c >>> 1) ^^^ 0xEDB88320 else c >>> 1).toNat
      = crc32Bit c.toNat := by
    intro c
    have hone : c &&& 1 = 1 ↔ c.toNat % 2 = 1 := by
      rw [← UInt32.toNat_inj, UInt32.toNat_and, ← Nat.and_one_is_mod]
      rfl
    have hhalf : (c >>> 1).toNat = c.toNat / 2 := by
      rw [UInt32.toNat_shiftRight]
      exact Nat.shiftRight_one _
    rw [crc32Bit]
    by_cases hc : c &&& 1 = 1
    · rw [if_pos hc, if_pos (hone.mp hc), UInt32.toNat_xor, hhalf]
      rfl
    · rw [if_neg hc, if_neg fun hn => hc (hone.mpr hn), hhalf]
  have hfold : ∀ (l : List ℕ) (c : UInt32),
      (l.foldl (fun (c : UInt32) _ =>
          if c &&& 1 = 1 then (c >>> 1) ^^^ 0xEDB88320 else c >>> 1) c).toNat
        = Nat.iterate crc32Bit l.length c.toNat := by
    intro l
    induction l with
    | nil =>
      intro c
      rfl
    | cons k l ih =>
      intro c
      rw [List.foldl_cons, ih, hbit]
      rfl
  rw [crc32Byte, hfold, UInt32.toNat_xor]
  rfl

theorem toNat_foldl_crc32Byte (bytes : List UInt8) (crc : UInt32) :
    (bytes.foldl crc32Byte crc).toNat = crc32Loop crc.toNat bytes := by
  induction bytes generalizing crc with
  | nil => rfl
  | cons b bytes ih =>
    rw [List.foldl_cons, ih, toNat_crc32Byte, crc32Loop]
    split
    case isTrue hzero => rw [hzero]
    case isFalse => rfl

theorem toNat_blocksCrc32 (blocks : List Block) :
    (Blman.blocksCrc32 Shared.plain blocks).toNat = gzipBlocksCrc32 blocks := by
  have hcrc : ∀ bytes, (Shared.plain.crc32_compute bytes).toNat
      = 2 ^ 32 - 1 - crc32Loop 0xFFFFFFFF bytes := by
    intro bytes
    show (~~~ bytes.foldl crc32Byte 0xFFFFFFFF).toNat = _
    rw [UInt32.toNat_not, toNat_foldl_crc32Byte]
    rfl
  rw [Blman.blocksCrc32, hcrc, gzipBlocksCrc32]
  simp only [hcrc]

/-! ### A large index file -/

/-- A block of the index whose records have all been erased. -/
def IndexDiskBlock.erased : IndexDiskBlock :=
  { IndexDiskBlock.zero with m_amountOfFreeSpace := sizeofDREC * slotsPerBlock }

/-- The store with `2 ^ 20` blocks in front of the index, as they are when all their X have
been deleted, and the room these had in the data file. No block is in the cache. The entry of
`x` has the manager `m`, and waits to be written. -/
def Storage.behind (st : Storage) (x : UInt64) (r : RecordIndex) (m : Blman) : Storage :=
  let st := ReallocDataFile (BLOCK_SIZE * slotsPerBlock * 2 ^ 20 : ℕ) st 0 true
  { st with
    files := { st.files with
      index := List.replicate (2 ^ 20) IndexDiskBlock.erased ++ st.files.index }
    m_pDataIndexDiskWriter := { IndexBlock.new with
      m_blockCount := 2 ^ 20 + st.files.index.length
      m_freeBlocks := Finset.range (2 ^ 20 + st.files.index.length) }
    m_dataIndexes := st.m_dataIndexes.insert x
      { r with
        m_pBlockManager := some m
        m_IB_blockNumber := 2 ^ 20 + r.m_IB_blockNumber
        inDiskWriteQueue := true } }

section Behind

variable {st : Storage} {x : UInt64} {r : RecordIndex} {m : Blman}

theorem Storage.behind_index (i : ℕ) :
    (st.behind x r m).files.index[2 ^ 20 + i]? = st.files.index[i]? := by
  show (List.replicate (2 ^ 20) IndexDiskBlock.erased ++ st.files.index)[2 ^ 20 + i]? = _
  rw [List.getElem?_append_right (by rw [List.length_replicate]; exact Nat.le_add_right _ _),
    List.length_replicate, Nat.add_sub_cancel_left]

theorem Storage.behind_index_first :
    (st.behind x r m).files.index[2 ^ 20 % 2 ^ 20]? = some IndexDiskBlock.erased := by
  show (List.replicate (2 ^ 20) IndexDiskBlock.erased ++ st.files.index)[2 ^ 20 % 2 ^ 20]? = _
  rw [Nat.mod_self, List.getElem?_append_left (by rw [List.length_replicate]; decide),
    List.getElem?_replicate_of_lt (by decide)]

/-- The data file has only become longer. -/
theorem Storage.behind_fread {pos : Int} {n : ℕ} {bs : List Block}
    (hread : st.files.data.fread pos n = some bs) :
    (st.behind x r m).files.data.fread pos n = some bs := by
  refine DataFile.fread_congr hread ?_ fun p hlo hhi => if_pos ?_
  · show st.files.data.size ≤ st.files.data.size + max _ 0
    omega
  · have hin := (DataFile.fread_eq_some.mp hread).1
    omega

/-- What was in order is in order behind the other blocks. -/
theorem Checked.behind {sh : Shared} {bs : List Block} {r' : RecordIndex}
    (h : Checked sh st x r bs) (hslot : r.slot = some (0, 0)) (hslot' : r'.slot = some (2 ^ 20, 0))
    (hdrec : r'.toDREC x = r.toDREC x) : Checked sh (st.behind x r m) x r' bs := by
  have hstart : r'.m_recordStart = r.m_recordStart := congrArg DREC.m_recordStart hdrec
  have hcount : r'.m_blockCount = r.m_blockCount := congrArg DREC.m_blockCount hdrec
  have hcrc : r'.m_crc32 = r.m_crc32 := congrArg DREC.m_crc32 hdrec
  obtain ⟨slot, hs, hrecord⟩ := h.record
  rw [hslot] at hs
  cases hs
  obtain ⟨b, hb, hb0, hnonempty⟩ := IndexBlock.mem_fileEntries.mp hrecord
  refine ⟨?_, hcrc.trans h.crc, (2 ^ 20, 0), hslot', ?_⟩
  · rw [hstart, hcount]
    exact Storage.behind_fread h.read
  · rw [hdrec]
    exact IndexBlock.mem_fileEntries.mpr ⟨b, (Storage.behind_index 0).trans hb, hb0, hnonempty⟩

end Behind

namespace Sys

/-- The record of the X is in block `2 ^ 20` of the index, and says what the data file and the
entry say. A second record is written to the X, and the blocks are flushed in place: the entry
gets a new CRC, but the record keeps the old one. -/
theorem dirty_blocks_stale : ∃ (s : Sys) (r : RecordIndex) (m m' : Blman) (status : WriteStatus),
    s.store.m_dataIndexes.lookup 7 = some r ∧ r.relocateBlocks = false
      ∧ Checked Shared.plain s.store 7 r m.blocks
      ∧ m.writeRecord Shared.plain (plainCfg 1000 5) 2 [1, 2, 3] = some (status, m')
      ∧ r.m_pBlockManager = some m' ∧ s.disk = .writing [⟨7, r.m_recordStart⟩] []
      ∧ ¬ s.Verified Shared.plain := by
  have hrun : (fresh.bind fun s => (server Shared.plain).run smallTest s
      [put 0 7 1, .beginProcess [], .getItems [7], .processItem ⟨4096, 64⟩]).any
      (fun s => (s.store.m_dataIndexes.lookup 7).any fun r => !r.relocateBlocks
        && decide (r.slot = some (0, 0))
        && r.m_pBlockManager.any fun m => m.blocks.all (fun b => !b.isDirty)
          && (m.writeRecord Shared.plain (plainCfg 1000 5) 2 [1, 2, 3]).any fun w =>
            gzipBlocksCrc32 m.blocks != gzipBlocksCrc32 (w.2.blocks.map Block.flushed)) = true := by
    decide +kernel
  obtain ⟨s, t, hs, hsteps, ht⟩ := exists_run _ small_of_test hrun
  obtain ⟨r, hr, ht⟩ := (Option.any_eq_true _ _).mp ht
  simp only [Bool.and_eq_true, Bool.not_eq_true', decide_eq_true_eq] at ht
  obtain ⟨⟨hrel, hslot⟩, ht⟩ := ht
  obtain ⟨m, hm, ht⟩ := (Option.any_eq_true _ _).mp ht
  rw [Bool.and_eq_true, List.all_eq_true] at ht
  obtain ⟨hclean, ht⟩ := ht
  obtain ⟨⟨status, m'⟩, hw, hne⟩ := (Option.any_eq_true _ _).mp ht
  rw [bne_iff_ne, ← toNat_blocksCrc32, ← toNat_blocksCrc32, ne_eq, UInt32.toNat_inj] at hne
  have hreach := (Machine.Reach.init s hs).steps hsteps
  obtain ⟨lost, hinv⟩ := reach_inv hreach
  have hbefore := StorageInv.checked_clean hinv hr hrel hm fun b hb =>
    (Bool.not_eq_true' _).mp (hclean b hb)
  -- the entry, the data and the record behind the other blocks
  obtain ⟨r', hr'⟩ : ∃ r' : RecordIndex, r' = { r with
      m_pBlockManager := some m'
      m_IB_blockNumber := 2 ^ 20 + r.m_IB_blockNumber
      inDiskWriteQueue := true } := ⟨_, rfl⟩
  have hx : (t.store.behind 7 r m').m_dataIndexes.lookup 7 = some r' := by
    rw [hr']
    exact AList.lookup_insert _
  have hnum := RecordIndex.slot_eq_some hslot
  have hslot' : r'.slot = some (2 ^ 20, 0) := by
    rw [hr']
    refine RecordIndex.slot_of_offset (by decide) ?_ hnum.2
    show 2 ^ 20 + r.m_IB_blockNumber = 2 ^ 20
    rw [hnum.1, Nat.add_zero]
  have hchecked : Checked Shared.plain (t.store.behind 7 r m') 7 r' m.blocks :=
    hbefore.behind hslot hslot' (by rw [hr']; rfl)
  have hcrc' : r'.m_crc32 ≠ Blman.blocksCrc32 Shared.plain (m'.blocks.map Block.flushed) := by
    rw [hchecked.crc]
    exact hne
  have hrel' : r'.relocateBlocks = false := by
    rw [hr']
    exact hrel
  have hmgr' : r'.m_pBlockManager = some m' := by rw [hr']
  refine ⟨{ t with
    store := t.store.behind 7 r m', disk := .writing [⟨7, r'.m_recordStart⟩] [] },
    r', m, m', status, hx, hrel', hchecked, hw, hmgr', rfl, fun hv => ?_⟩
  obtain ⟨lru, hput, -⟩ := LRUCache.IsList.empty.put (UInt64.ofNat (2 ^ 20))
  have hwraps : ∃ st1 r1, processItem Shared.plain ⟨4096, 64⟩ (t.store.behind 7 r m') []
        ⟨7, r'.m_recordStart⟩ = some (st1, [])
      ∧ st1.m_dataIndexes.lookup 7 = some r1 ∧ r1.slot = some (2 ^ 20, 0)
      ∧ r1.m_crc32 ≠ r'.m_crc32
      ∧ st1.files.index[2 ^ 20]? = (t.store.behind 7 r m').files.index[2 ^ 20]? :=
    processItem_wraps hx hmgr' hrel' hslot' rfl hput Storage.behind_index_first (Nat.le_refl _)
      hcrc'
  obtain ⟨st1, r1, hp, hx1, hslot1, hne1, hsame⟩ := hwraps
  obtain ⟨r2, m2, hx2, -, -, hafter⟩ := hv.item _ _ _ _ _ _ rfl hp
    (AList.lookup_isSome.mp (by rw [hx]; rfl))
  rw [hx1] at hx2
  cases hx2
  -- the record in the slot is the old one
  obtain ⟨slot, hs2, hrecord⟩ := hchecked.record
  rw [hslot'] at hs2
  cases hs2
  obtain ⟨slot, hs2, hrecord'⟩ := hafter.record
  rw [hslot1] at hs2
  cases hs2
  obtain ⟨b, hb, hb0, -⟩ := IndexBlock.mem_fileEntries.mp hrecord
  obtain ⟨b', hb', hb0', -⟩ := IndexBlock.mem_fileEntries.mp hrecord'
  rw [hsame, hb] at hb'
  cases hb'
  rw [hb0] at hb0'
  exact hne1 (congrArg DREC.m_crc32 (Option.some.inj hb0')).symm

end Sys

end TransDB
