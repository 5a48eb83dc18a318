/-
One item of a flush: where its blocks go, and what the writes leave alone.

`writeBlocks_spec` covers both ways of writing an item. The blocks in memory, their
dirty flags cleared, are in the data file afterwards: in place because the blocks
that are not dirty were there already, or in a region taken from the free space.
No prefix of the writes touches anything outside the region of the item
(`Files.Confined`).
-/
import TransDB.StorageInv

set_option autoImplicit false

namespace TransDB

open DiskWriter

/-! ## Lists of writes -/

/-- Each of the writes, in order, changes the data file in one region only. -/
def Files.Confined (reg : Region) : Files → List FileWrite → Prop
  | _, [] => True
  | f, w :: ws => DataFile.OnlyIn reg f.data (f.apply w).data ∧ (f.apply w).index = f.index
    ∧ Confined reg (f.apply w) ws

namespace Files.Confined

variable {reg : Region} {f : Files} {ws ws' : List FileWrite}

theorem append (h : f.Confined reg ws) (h' : (ws.foldl Files.apply f).Confined reg ws') :
    f.Confined reg (ws ++ ws') := by
  induction ws generalizing f with
  | nil => exact h'
  | cons w ws ih => exact ⟨h.1, h.2.1, ih h.2.2 h'⟩

/-- What is left alone by any prefix of the writes. -/
theorem of_prefix (h : f.Confined reg ws) (hp : ws' <+: ws) :
    DataFile.OnlyIn reg f.data (ws'.foldl Files.apply f).data
      ∧ (ws'.foldl Files.apply f).index = f.index := by
  induction ws' generalizing f ws with
  | nil => exact ⟨DataFile.OnlyIn.refl reg f.data, rfl⟩
  | cons w ws' ih =>
    cases ws with
    | nil => exact absurd hp (by simp)
    | cons w' ws =>
      obtain ⟨rfl, hp'⟩ := List.cons_prefix_cons.mp hp
      obtain ⟨hdata, hindex⟩ := ih h.2.2 hp'
      exact ⟨h.1.trans hdata, hindex.trans h.2.1⟩

theorem onlyIn (h : f.Confined reg ws) :
    DataFile.OnlyIn reg f.data (ws.foldl Files.apply f).data :=
  (h.of_prefix (List.prefix_refl ws)).1

theorem index_eq (h : f.Confined reg ws) : (ws.foldl Files.apply f).index = f.index :=
  (h.of_prefix (List.prefix_refl ws)).2

end Files.Confined

namespace Storage

/-- The store after some writes, with its new size and free space. -/
def wrote (self : Storage) (ws : List FileWrite) (size : Int) (free : FreeSpaceBlockMap) :
    Storage :=
  { self with
    files := ws.foldl Files.apply self.files
    trace := { self.trace with writes := self.trace.writes ++ ws }
    m_dataFileSize := size
    m_rFreeSpace := free }

theorem wrote_nil (self : Storage) (free : FreeSpaceBlockMap) :
    self.wrote [] self.m_dataFileSize free = { self with m_rFreeSpace := free } := by
  rw [wrote, List.append_nil, List.foldl_nil]

theorem wrote_write (self : Storage) (ws : List FileWrite) (size : Int) (free : FreeSpaceBlockMap)
    (w : FileWrite) : (self.wrote ws size free).write w = self.wrote (ws ++ [w]) size free := by
  rw [wrote, wrote, write, List.foldl_append, List.append_assoc]
  rfl

theorem foldl_write (ws : List FileWrite) (self : Storage) :
    ws.foldl write self = self.wrote ws self.m_dataFileSize self.m_rFreeSpace := by
  induction ws using List.reverseRecOn with
  | nil => exact (wrote_nil self self.m_rFreeSpace).symm
  | append_singleton ws w ih => rw [List.foldl_append, ih, List.foldl_cons, List.foldl_nil,
      wrote_write]

end Storage

/-! ## In place -/

/-- The block in memory after the loop. -/
def Block.flushed (b : Block) : Block := if b.isDirty then b.clearDirty else b

/-- The block in the data file after the loop, `old` being the one before. -/
def Block.landed (b old : Block) : Block := if b.isDirty then b.clearDirty else old

/-- The writes of `writeDirtyLoop`. -/
def dirtyWrites (recordStart : Int) : ℕ → List Block → List FileWrite
  | _, [] => []
  | i, b :: blocks =>
    (if b.isDirty then [.data (recordStart + i * BLOCK_SIZE) b.clearDirty.bytes] else [])
      ++ dirtyWrites recordStart (i + 1) blocks

theorem writeDirtyLoop_eq (recordStart : Int) (blocks : List Block) :
    ∀ (i : ℕ) (st : Storage), writeDirtyLoop recordStart i blocks st
      = (blocks.map Block.flushed, (dirtyWrites recordStart i blocks).foldl Storage.write st) := by
  induction blocks with
  | nil =>
    intro i st
    rfl
  | cons b blocks ih =>
    intro i st
    rw [writeDirtyLoop, dirtyWrites, List.map_cons, Block.flushed]
    by_cases hd : b.isDirty = true
    · rw [if_pos hd, if_pos hd, if_pos hd]
      dsimp only
      rw [ih]
      rfl
    · rw [if_neg hd, if_neg hd, if_neg hd, ih]
      rfl

section InPlace

variable {recordStart : Int} {n : ℕ}

theorem confined_dirtyWrites (blocks : List Block) : ∀ (i : ℕ) (f : Files), i + blocks.length ≤ n →
    f.Confined (DataFile.blocksAt recordStart n) (dirtyWrites recordStart i blocks) := by
  induction blocks with
  | nil =>
    intro i f _
    exact trivial
  | cons b blocks ih =>
    intro i f hi
    rw [List.length_cons] at hi
    rw [dirtyWrites]
    by_cases hd : b.isDirty = true
    · rw [if_pos hd]
      refine ⟨DataFile.OnlyIn.fwrite f.data ?_, rfl, ih (i + 1) _ (by omega)⟩
      have hlt : i < n := by omega
      obtain ⟨h1, h2⟩ := DataFile.offset_le hlt
      rw [b.clearDirty.size_eq]
      refine ⟨?_, ?_⟩
      · show recordStart ≤ recordStart + i * BLOCK_SIZE
        omega
      · show recordStart + i * BLOCK_SIZE + BLOCK_SIZE ≤ recordStart + n * BLOCK_SIZE
        omega
    · rw [if_neg hd]
      exact ih (i + 1) f (by omega)

/-- Writing in place does not change the size of the file. -/
theorem size_dirtyWrites (blocks : List Block) : ∀ (i : ℕ) (f : Files), i + blocks.length ≤ n →
    recordStart + n * BLOCK_SIZE ≤ f.data.size →
    ((dirtyWrites recordStart i blocks).foldl Files.apply f).data.size = f.data.size := by
  induction blocks with
  | nil =>
    intro i f _ _
    rfl
  | cons b blocks ih =>
    intro i f hi hsize
    rw [List.length_cons] at hi
    rw [dirtyWrites]
    by_cases hd : b.isDirty = true
    · rw [if_pos hd, List.singleton_append, List.foldl_cons]
      have hlt : i < n := by omega
      obtain ⟨h1, h2⟩ := DataFile.offset_le hlt
      have hsame : (f.apply (.data (recordStart + i * BLOCK_SIZE) b.clearDirty.bytes)).data.size
          = f.data.size := by
        show max f.data.size (_ + (b.clearDirty.bytes.length : Int)) = f.data.size
        rw [b.clearDirty.size_eq]
        omega
      rw [ih (i + 1) _ (by omega) (by rw [hsame]; exact hsize), hsame]
    · rw [if_neg hd]
      exact ih (i + 1) f (by omega) hsize

/-- The blocks in the file when the loop has passed the first ones. -/
theorem fread_dirtyWrites (blocks : List Block) : ∀ (pre tail : List Block) (f : Files),
    f.data.fread recordStart n = some (pre ++ tail) → tail.length = blocks.length →
    ((dirtyWrites recordStart pre.length blocks).foldl Files.apply f).data.fread recordStart n
      = some (pre ++ List.zipWith Block.landed blocks tail) := by
  induction blocks with
  | nil =>
    intro pre tail f hread hlen
    rw [List.length_eq_zero_iff.mp hlen] at hread
    exact hread
  | cons b blocks ih =>
    intro pre tail f hread hlen
    cases tail with
    | nil => cases hlen
    | cons old tail =>
      rw [List.length_cons, List.length_cons, Nat.succ_inj] at hlen
      have hn : pre.length < n := by
        have hbs := (DataFile.fread_eq_some.mp hread).2.1
        rw [List.length_append, List.length_cons] at hbs
        omega
      have hstep : ∀ (c : Block) (g : Files), g.data.fread recordStart n = some (pre ++ c :: tail) →
          ((dirtyWrites recordStart (pre.length + 1) blocks).foldl Files.apply g).data.fread
            recordStart n = some (pre ++ c :: List.zipWith Block.landed blocks tail) := by
        intro c g hg
        have hlen' : (pre ++ [c]).length = pre.length + 1 := List.length_append
        have hread' : g.data.fread recordStart n = some ((pre ++ [c]) ++ tail) := by
          rw [List.append_assoc]
          exact hg
        have hih := ih (pre ++ [c]) tail g hread' hlen
        rw [hlen', List.append_assoc] at hih
        exact hih
      rw [dirtyWrites, List.zipWith_cons_cons, Block.landed]
      by_cases hd : b.isDirty = true
      · rw [if_pos hd, if_pos hd, List.singleton_append, List.foldl_cons]
        refine hstep _ _ ?_
        have hset := DataFile.fread_fwrite_block b.clearDirty hread hn
        rw [List.set_append_right _ _ (Nat.le_refl _), Nat.sub_self] at hset
        exact hset
      · rw [if_neg hd, if_neg hd]
        exact hstep old f hread

end InPlace

theorem flushed_eq {blocks : List Block} (hv : ∀ b ∈ blocks, b.Valid) :
    blocks.map Block.flushed = blocks.map Block.clearDirty := by
  refine List.map_congr_left fun b hb => ?_
  rw [Block.flushed]
  by_cases hd : b.isDirty = true
  · rw [if_pos hd]
  · rw [if_neg hd, (hv b hb).clearDirty_eq (Bool.eq_false_iff.mpr hd)]

/-- The blocks that are not dirty were in the file already. -/
theorem landed_eq {blocks bs : List Block} (hframe : DirtyFrame bs blocks)
    (hlen : bs.length = blocks.length) (hv : ∀ b ∈ blocks, b.Valid) :
    List.zipWith Block.landed blocks bs = blocks.map Block.clearDirty := by
  refine List.ext_getElem? fun i => ?_
  rw [List.getElem?_zipWith, List.getElem?_map]
  cases hb : blocks[i]? with
  | none => rfl
  | some b =>
    have hi : i < bs.length := by
      rw [hlen]
      exact (List.getElem?_eq_some_iff.mp hb).1
    obtain ⟨old, hold⟩ : ∃ old, bs[i]? = some old := ⟨_, List.getElem?_eq_getElem hi⟩
    rw [hold]
    show some (b.landed old) = some b.clearDirty
    rw [Option.some.injEq, Block.landed]
    by_cases hd : b.isDirty = true
    · rw [if_pos hd]
    · have hsame : bs[i]? = some b := (hframe i b hb).resolve_right hd
      rw [hold] at hsame
      rw [if_neg hd, Option.some.inj hsame,
        (hv b (List.mem_of_getElem? hb)).clearDirty_eq (Bool.eq_false_iff.mpr hd)]

/-! ## In a new place -/

/-- The free space has room after `ReallocDataFile`, if it had none before. -/
theorem allocate_spec {st : Storage} {len : Int} {other : List Region} (ReallocSize : Int)
    (hsize : st.m_dataFileSize = st.files.data.size) (h0 : 0 ≤ st.m_dataFileSize)
    (hne : FreeSpaceBlockMap.NoEmptyBucket st.m_rFreeSpace) (hlen : 0 < len)
    (ht : Region.Tiles 0 st.m_dataFileSize (FreeSpaceBlockMap.regions st.m_rFreeSpace ++ other)) :
    ∃ p ws size free, allocate ReallocSize st len = some (p, st.wrote ws size free)
      ∧ FreeSpaceBlockMap.NoEmptyBucket free ∧ size = (ws.foldl Files.apply st.files).data.size
      ∧ st.m_dataFileSize ≤ size
      ∧ Region.Tiles 0 size (⟨p, len⟩ :: (FreeSpaceBlockMap.regions free ++ other))
      ∧ ∀ reg, st.files.Confined reg ws := by
  have hne1 : ∀ {size p : Int} {rs : List Region}, Region.Tiles 0 size (⟨p, len⟩ :: rs) →
      p ≠ -1 := by
    intro size p rs ht'
    have hp : 0 ≤ p := (ht'.inside _ List.mem_cons_self).1
    omega
  obtain ⟨p, free, hget, hfree, hcases⟩ := FreeSpaceBlockMap.GetFreeSpacePos_spec hne hlen ht
  have htake : takeFreeSpace st len = some (p, { st with m_rFreeSpace := free }) := by
    rw [takeFreeSpace, hget]
    rfl
  rcases hcases with ⟨rfl, rfl, hsmall⟩ | ht'
  · -- no region is large enough: the file grows by one that is
    have hgrow : 0 < max ReallocSize len := by omega
    have hst : ReallocDataFile ReallocSize { st with m_rFreeSpace := st.m_rFreeSpace } len true
        = st.wrote [.resize (st.m_dataFileSize + max ReallocSize len)]
          (st.m_dataFileSize + max ReallocSize len)
          (st.m_rFreeSpace.AddFreeSpace st.m_dataFileSize (max ReallocSize len)) := by
      have hrfl : ReallocDataFile ReallocSize { st with m_rFreeSpace := st.m_rFreeSpace } len true
          = st.wrote [.resize (st.files.data.size + max ReallocSize len)]
            (st.m_dataFileSize + max ReallocSize len)
            (st.m_rFreeSpace.AddFreeSpace st.files.data.size (max ReallocSize len)) := rfl
      rw [hrfl, hsize]
    have hgrown : (st.wrote [.resize (st.m_dataFileSize + max ReallocSize len)]
        (st.m_dataFileSize + max ReallocSize len)
        (st.m_rFreeSpace.AddFreeSpace st.m_dataFileSize (max ReallocSize len))).m_rFreeSpace
          = st.m_rFreeSpace.AddFreeSpace st.m_dataFileSize (max ReallocSize len) := rfl
    obtain ⟨hperm, hne'⟩ := FreeSpaceBlockMap.AddFreeSpace_spec hne h0 hgrow
    have ht1 := (ht.extend hgrow h0).perm ((hperm.append_right other).symm)
    obtain ⟨q, free', hget', hfree', hcases'⟩ := FreeSpaceBlockMap.GetFreeSpacePos_spec hne' hlen ht1
    refine ⟨q, [.resize (st.m_dataFileSize + max ReallocSize len)],
      st.m_dataFileSize + max ReallocSize len, free', ?_, hfree', rfl, by omega, ?_, ?_⟩
    · rw [allocate, htake, Option.bind_eq_bind, Option.bind_some]
      dsimp only
      rw [if_pos rfl, hst, takeFreeSpace, hgrown, hget']
      rfl
    · rcases hcases' with ⟨-, -, hsmall'⟩ | ht2
      · have hmem := hsmall' _ (hperm.mem_iff.mpr List.mem_cons_self)
        have hlt : max ReallocSize len < len := hmem
        omega
      · exact ht2
    · intro reg
      refine ⟨DataFile.OnlyIn.fresize ?_, rfl, trivial⟩
      omega
  · refine ⟨p, [], st.m_dataFileSize, free, ?_, hfree, hsize, Int.le_refl _, ht', fun _ => trivial⟩
    rw [allocate, htake, Option.bind_eq_bind, Option.bind_some]
    dsimp only
    rw [if_neg (hne1 ht'), Storage.wrote_nil]
    rfl

/-! ## Both ways -/

/-- The regions an item gives up when it is written. -/
def givenUp (r : RecordIndex) : List Region := if r.relocateBlocks then usedRegion r else []

/-- What the writes of an item leave: `p` is where its blocks are, and `other` the
regions that belong to others. -/
structure Placed (st : Storage) (r : RecordIndex) (m : Blman) (other : List Region)
    (ws : List FileWrite) (size : Int) (free : FreeSpaceBlockMap) (p : Int) : Prop where
  size_eq : size = (ws.foldl Files.apply st.files).data.size
  size_le : st.m_dataFileSize ≤ size
  noEmpty : FreeSpaceBlockMap.NoEmptyBucket free
  tiles : Region.Tiles 0 size (FreeSpaceBlockMap.regions free
    ++ (givenUp r ++ (DataFile.blocksAt p m.blockCount :: other)))
  read : (ws.foldl Files.apply st.files).data.fread p m.blockCount
    = some m.clearDirtyFlags.blocks
  confined : st.files.Confined (DataFile.blocksAt p m.blockCount) ws
  stays : r.relocateBlocks = false → DataFile.blocksAt p m.blockCount = r.region

theorem writeBlocks_spec {st : Storage} {r : RecordIndex} {m : Blman} {other : List Region}
    (ReallocSize : Int)
    (hsize : st.m_dataFileSize = st.files.data.size) (h0 : 0 ≤ st.m_dataFileSize)
    (hne : FreeSpaceBlockMap.NoEmptyBucket st.m_rFreeSpace)
    (ht : Region.Tiles 0 st.m_dataFileSize (FreeSpaceBlockMap.regions st.m_rFreeSpace
      ++ (usedRegion r ++ other)))
    (hr : EntryOk st.files.data r) (hm : r.m_pBlockManager = some m) :
    ∃ ws size free p, writeBlocks ReallocSize st r m = some (st.wrote ws size free,
        some ({ r with m_recordStart := p, m_pBlockManager := some m.clearDirtyFlags },
          m.clearDirtyFlags, givenUp r))
      ∧ Placed st r m other ws size free p := by
  have hinv := hr.manager m hm
  have hpos : 0 < m.blockCount := List.length_pos_iff.mpr hinv.nonempty
  by_cases hrel : r.relocateBlocks = true
  · have hlen : 0 < (m.blockCount : Int) * BLOCK_SIZE := by
      have hoff := DataFile.offset_le hpos
      have hblock : (0 : Int) < BLOCK_SIZE := by decide
      omega
    obtain ⟨p, ws, size, free, hal, hfree, hsz, hle, ht', hconf⟩ :=
      allocate_spec ReallocSize hsize h0 hne hlen ht
    have hin : 0 ≤ p ∧ p + (m.blockCount : Int) * BLOCK_SIZE ≤ size := ht'.inside _ List.mem_cons_self
    have hbytes : (m.clearDirtyFlags.blocks.flatMap Block.bytes).length
        = m.blockCount * BLOCK_SIZE := by
      rw [DataFile.length_flatMap_bytes, ← Blman.blockCount, Blman.clearDirtyFlags_blockCount]
    refine ⟨ws ++ [.data p (m.clearDirtyFlags.blocks.flatMap Block.bytes)], size, free, p, ?_, ?_⟩
    · have hwrite : WriteDataWithRelocateFlag ReallocSize st r m
          = some (st.wrote (ws ++ [.data p (m.clearDirtyFlags.blocks.flatMap Block.bytes)]) size free,
            some ({ r with m_recordStart := p, m_pBlockManager := some m.clearDirtyFlags },
              m.clearDirtyFlags)) := by
        rw [WriteDataWithRelocateFlag, hal, Option.bind_eq_bind, Option.bind_some]
        dsimp only
        rw [if_neg (by omega : p ≠ -1), Storage.wrote_write]
        rfl
      rw [writeBlocks, if_pos hrel, hwrite, givenUp, if_pos hrel]
      rfl
    · refine ⟨?_, hle, hfree, ?_, ?_, ?_, ?_⟩
      · rw [List.foldl_append]
        show size = max (ws.foldl Files.apply st.files).data.size (p + (_ : ℕ))
        rw [hbytes, ← hsz, Int.natCast_mul]
        omega
      · rw [givenUp, if_pos hrel]
        refine ht'.perm ?_
        rw [← List.append_assoc, ← List.append_assoc]
        exact List.perm_middle.symm
      · rw [List.foldl_append]
        have hself := DataFile.fread_fwrite_self (ws.foldl Files.apply st.files).data
          m.clearDirtyFlags.blocks hin.1
        rw [← Blman.blockCount, Blman.clearDirtyFlags_blockCount] at hself
        exact hself
      · refine (hconf _).append ⟨DataFile.OnlyIn.fwrite _ ?_, rfl, trivial⟩
        rw [hbytes, Int.natCast_mul]
        exact ⟨Int.le_refl _, Int.le_refl _⟩
      · intro hfalse
        rw [hrel] at hfalse
        cases hfalse
  · have hstay := Bool.eq_false_iff.mpr hrel
    obtain ⟨bs, hst, hframe⟩ := hr.stored hstay
    obtain ⟨hdirty, hcount⟩ := hframe m hm
    obtain ⟨⟨hstart, hin⟩, hbs, -⟩ := DataFile.fread_eq_some.mp hst.read
    have hlenb : bs.length = m.blocks.length := hbs.trans hcount.symm
    have hle : 0 + m.blocks.length ≤ r.m_blockCount := by
      rw [Nat.zero_add, ← hlenb, hbs]
    have hregion : DataFile.blocksAt r.m_recordStart m.blockCount = r.region := by
      rw [hcount]
      rfl
    have hused : usedRegion r = [r.region] := if_pos (by omega)
    have hsame := size_dirtyWrites m.blocks 0 st.files hle hin
    refine ⟨dirtyWrites r.m_recordStart 0 m.blocks, st.m_dataFileSize, st.m_rFreeSpace,
      r.m_recordStart, ?_, ?_⟩
    · rw [writeBlocks, if_neg hrel, WriteDataWithoutRelocateFlag, writeDirtyLoop_eq,
        Storage.foldl_write, flushed_eq hinv.valid, givenUp, if_neg hrel]
      rfl
    · refine ⟨by rw [hsame, hsize], Int.le_refl _, hne, ?_, ?_, ?_, fun _ => hregion⟩
      · rw [givenUp, if_neg hrel, List.nil_append, hregion]
        rw [hused] at ht
        exact ht
      · have hread := fread_dirtyWrites m.blocks [] bs st.files hst.read hlenb
        rw [landed_eq hdirty hlenb hinv.valid] at hread
        rw [hcount]
        exact hread
      · rw [hcount]
        exact confined_dirtyWrites m.blocks 0 st.files hle

end TransDB
