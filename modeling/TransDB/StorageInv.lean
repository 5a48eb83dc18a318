/-
Who owns which part of the disk.

Regions of the data file and slots of the index file belong to the entries: those
of the main index, those in the deletion queue, and those the disk thread has
taken from it. `held f` collects what all of them have, for any `f` that depends
on the place of an entry only, so that slots and regions are moved by the same
lemmas. When `QueueIndexDeletetion` replaces an entry of the queue, what the old
one had is held by nobody any more; the invariants carry it as `lost`.

`DataInv` is about the data file and does not need the index file; `IndexInv` is
what ties the two together.
-/
import TransDB.StorageOps
import TransDB.DataFile
import TransDB.IndexBlockRuns
import TransDB.DiskWriter

set_option autoImplicit false

namespace TransDB

open DiskWriter Storage

/-! ## What the entries hold -/

/-- The same place in both files. -/
structure RecordIndex.SamePlace (r r' : RecordIndex) : Prop where
  start : r'.m_recordStart = r.m_recordStart
  count : r'.m_blockCount = r.m_blockCount
  offset : r'.m_IB_recordOffset = r.m_IB_recordOffset
  number : r'.m_IB_blockNumber = r.m_IB_blockNumber

/-- Something an entry has by its place, and that an entry without a place has not. -/
structure PlaceOnly {γ : Type} (f : RecordIndex → List γ) : Prop where
  same : ∀ r r' : RecordIndex, r.SamePlace r' → f r' = f r
  fresh : ∀ r : RecordIndex, r.m_recordStart = -1 → r.m_IB_recordOffset = -1 → f r = []

/-- The slot and the region of an entry that has been written to the index file. -/
def owned (r : RecordIndex) : List ((ℕ × ℕ) × Region) :=
  match r.slot with
  | some slot => [(slot, r.region)]
  | none => []

theorem RecordIndex.SamePlace.region_eq {r r' : RecordIndex} (h : r.SamePlace r') :
    r'.region = r.region := by
  rw [RecordIndex.region, RecordIndex.region, h.start, h.count]

theorem RecordIndex.SamePlace.slot_eq {r r' : RecordIndex} (h : r.SamePlace r') :
    r'.slot = r.slot := by
  rw [RecordIndex.slot, RecordIndex.slot, h.offset, h.number]

theorem usedRegion_place : PlaceOnly usedRegion where
  same r r' h := by rw [usedRegion, usedRegion, h.start, h.region_eq]
  fresh r hstart _ := if_neg (not_not_intro hstart)

theorem usedSlot_place : PlaceOnly usedSlot where
  same r r' h := by rw [usedSlot, usedSlot, h.offset, h.number]
  fresh r _ hoff := if_neg (not_not_intro hoff)

theorem owned_place : PlaceOnly owned where
  same r r' h := by rw [owned, owned, h.slot_eq, h.region_eq]
  fresh r _ hoff := by rw [owned, RecordIndex.slot_unwritten hoff]

theorem deletedCopy_place (r : RecordIndex) : r.SamePlace (deletedCopy r) := ⟨rfl, rfl, rfl, rfl⟩

section Held

variable {γ : Type} (f : RecordIndex → List γ)

/-- What the entries of the deletion queue have, and the ones taken from it. -/
def queued (st : Storage) (deleting : List RecordIndex) : List γ :=
  KeyMap.collect (fun _ => f) st.m_pRIDelQueue ++ deleting.flatMap f

/-- What all the entries have. -/
def held (st : Storage) (deleting : List RecordIndex) : List γ :=
  KeyMap.collect (fun _ => f) st.m_dataIndexes ++ queued f st deleting

variable {f} {st : Storage} {deleting : List RecordIndex} {x : UInt64} {r r' : RecordIndex}

theorem mem_held {c : γ} : c ∈ held f st deleting ↔
    (∃ x r, st.m_dataIndexes.lookup x = some r ∧ c ∈ f r)
      ∨ (∃ x r, st.m_pRIDelQueue.lookup x = some r ∧ c ∈ f r) ∨ ∃ r ∈ deleting, c ∈ f r := by
  rw [held, queued, List.mem_append, List.mem_append, KeyMap.mem_collect, KeyMap.mem_collect,
    List.mem_flatMap]

/-- The entry of `x` taken out. -/
theorem held_perm (f : RecordIndex → List γ) (deleting : List RecordIndex)
    (hx : st.m_dataIndexes.lookup x = some r) :
    (held f st deleting).Perm
      (f r ++ (KeyMap.collect (fun _ => f) (st.m_dataIndexes.erase x) ++ queued f st deleting)) := by
  rw [held, ← List.append_assoc]
  exact (KeyMap.collect_perm hx).append_right _

/-- An entry that keeps its place. -/
theorem held_insert_same (hf : PlaceOnly f) (hx : st.m_dataIndexes.lookup x = some r)
    (hr : r.SamePlace r') :
    (KeyMap.collect (fun _ => f) (st.m_dataIndexes.insert x r') ++ queued f st deleting).Perm
      (held f st deleting) :=
  (KeyMap.collect_insert_same hx (hf.same r r' hr)).append_right _

/-- An entry without a place is added. -/
theorem held_insert_fresh (hf : PlaceOnly f) (hx : st.m_dataIndexes.lookup x = none)
    (hstart : r.m_recordStart = -1) (hoff : r.m_IB_recordOffset = -1) :
    KeyMap.collect (fun _ => f) (st.m_dataIndexes.insert x r) ++ queued f st deleting
      = held f st deleting := by
  rw [KeyMap.collect_insert, hf.fresh r hstart hoff, List.nil_append,
    KeyMap.collect_erase_of_none hx, held]

/-- What the entry of `x` in the deletion queue has. -/
def replaced (f : RecordIndex → List γ) (st : Storage) (x : UInt64) : List γ :=
  ((st.m_pRIDelQueue.lookup x).toList).flatMap f

/-- A deletion adds what the entry had to the queue, in the place of what was there. -/
theorem queued_delete (sh : Shared) (hf : PlaceOnly f) :
    (f r ++ queued f st deleting).Perm
      (queued f (st.deleted sh x r) deleting ++ replaced f st x) := by
  have hnew : queued f (st.deleted sh x r) deleting
      = f r ++ (KeyMap.collect (fun _ => f) (st.m_pRIDelQueue.erase x) ++ deleting.flatMap f) := by
    show KeyMap.collect _ (st.m_pRIDelQueue.insert x (deletedCopy r)) ++ _ = _
    rw [KeyMap.collect_insert, hf.same r _ (deletedCopy_place r), List.append_assoc]
  rw [hnew, List.append_assoc]
  refine List.Perm.append_left _ ?_
  rw [queued, replaced]
  cases hq : st.m_pRIDelQueue.lookup x with
  | none =>
    rw [KeyMap.collect_erase_of_none hq]
    exact List.Perm.of_eq (List.append_nil _).symm
  | some q =>
    have hp := (KeyMap.collect_perm (f := fun _ => f) hq).append_right (deleting.flatMap f)
    refine hp.trans ?_
    rw [Option.toList_some, List.flatMap_singleton, List.append_assoc]
    exact List.perm_append_comm

theorem held_delete (sh : Shared) (hf : PlaceOnly f) (hx : st.m_dataIndexes.lookup x = some r) :
    (held f st deleting).Perm (held f (st.deleted sh x r) deleting ++ replaced f st x) := by
  refine (held_perm f deleting hx).trans ?_
  rw [held, List.append_assoc]
  refine (List.perm_append_comm_assoc _ _ _).trans ?_
  exact (queued_delete sh hf).append_left _

end Held

/-! ## Effects, entry by entry -/

/-- The members that only the disk thread changes. -/
structure Storage.SameDisk (st st' : Storage) : Prop where
  files : st'.files = st.files
  size : st'.m_dataFileSize = st.m_dataFileSize
  index : st'.m_pDataIndexDiskWriter = st.m_pDataIndexDiskWriter
  free : st'.m_rFreeSpace = st.m_rFreeSpace

/-- Everything an entry can have is held as before, and the history goes on. -/
structure Storage.SameHeld (st st' : Storage) : Prop where
  delQueue : st'.m_pRIDelQueue = st.m_pRIDelQueue
  trace : st'.trace = st.trace
  held : ∀ {γ : Type} {f : RecordIndex → List γ}, PlaceOnly f → ∀ deleting,
    (held f st' deleting).Perm (held f st deleting)

/-- What an effect can do to the entry of one X: the entry before, if there was one,
and after. -/
inductive EntryEffect (allowed : Allowed) (x : UInt64) (f : DataFile) :
    Option RecordIndex → RecordIndex → Prop
  | same (r : RecordIndex) : EntryEffect allowed x f (some r) r
  | load (r : RecordIndex) (bs : List Block) (m : Blman) (hmgr : r.m_pBlockManager = none)
    (hrel : r.relocateBlocks = false) (hread : f.fread r.m_recordStart r.m_blockCount = some bs)
    (hm : Blman.create (some bs) = some m) :
    EntryEffect allowed x f (some r) { r with m_pBlockManager := some m }
  | edit (r : RecordIndex) (m : Blman) (e : Edit) (hm : r.m_pBlockManager = some m)
    (hok : m.Inv → e.Ok m) (ha : allowed.edit x m e) :
    EntryEffect allowed x f (some r)
      { r with
        m_pBlockManager := some e.after
        relocateBlocks := r.relocateBlocks || e.relocate
        dirty := r.dirty || e.relocate
        inDiskWriteQueue := r.inDiskWriteQueue || e.queued }
  | evict (r : RecordIndex) (m : Blman) (hm : r.m_pBlockManager = some m)
    (hidle : r.inDiskWriteQueue = false) :
    EntryEffect allowed x f (some r) { r with m_pBlockManager := none }
  | create (m : Blman) (blockCount : ℕ) (hm : m.Inv) :
    EntryEffect allowed x f none { newIndex m blockCount with inDiskWriteQueue := true }

namespace Edit

variable {e : Edit} {st : Storage} {x : UInt64} {r : RecordIndex}

/-- The entry after an edit. -/
theorem apply_dataIndexes : (e.apply st x r).m_dataIndexes = st.m_dataIndexes.insert x
    { r with
      m_pBlockManager := some e.after
      relocateBlocks := r.relocateBlocks || e.relocate
      dirty := r.dirty || e.relocate
      inDiskWriteQueue := r.inDiskWriteQueue || e.queued } := by
  unfold apply
  cases e.queued with
  | true =>
    rw [Bool.or_true]
    rfl
  | false =>
    rw [Bool.or_false]
    rfl

theorem apply_delQueue : (e.apply st x r).m_pRIDelQueue = st.m_pRIDelQueue := by
  unfold apply
  cases e.queued with
  | true => rfl
  | false => rfl

theorem apply_sameDisk : st.SameDisk (e.apply st x r) := by
  unfold apply
  cases e.queued with
  | true => exact ⟨rfl, rfl, rfl, rfl⟩
  | false => exact ⟨rfl, rfl, rfl, rfl⟩

theorem apply_trace : (e.apply st x r).trace = st.trace := by
  unfold apply
  cases e.queued with
  | true => rfl
  | false => rfl

theorem apply_memory : (e.apply st x r).m_memoryUsed = st.m_memoryUsed + e.memory := by
  unfold apply
  cases e.queued with
  | true => rfl
  | false => rfl

theorem apply_queue : (e.apply st x r).m_pQueue
    = if e.queued then st.m_pQueue.insert x ⟨x, r.m_recordStart⟩ else st.m_pQueue := by
  unfold apply
  cases e.queued with
  | true => rfl
  | false => rfl

end Edit

theorem Storage.evict_some {sh : Shared} {st : Storage} {x : UInt64} {r : RecordIndex} {m : Blman}
    (hm : r.m_pBlockManager = some m) :
    st.evict sh x r = { st.setIndex x { r with m_pBlockManager := none } with
      m_memoryUsed := st.m_memoryUsed - memoryUsage sh m } := by
  rw [evict, hm]

namespace Effect

variable {sh : Shared} {allowed : Allowed} {st st' : Storage}

theorem sameDisk (he : Effect sh allowed st st') : st.SameDisk st' := by
  cases he with
  | load x r bs m hx hmgr hrel hread hm => exact ⟨rfl, rfl, rfl, rfl⟩
  | edit x r m e hx hm hok ha => exact e.apply_sameDisk
  | create x m blockCount hx hm => exact ⟨rfl, rfl, rfl, rfl⟩
  | delete x r hx ha => exact ⟨rfl, rfl, rfl, rfl⟩
  | evict x r m hx hm hidle =>
    rw [evict_some hm]
    exact ⟨rfl, rfl, rfl, rfl⟩

/-- An entry of an X that has one after the insertion of another. -/
theorem lookup_insert_cases {s : RecordIndexMap} {x y : UInt64} {r r' : RecordIndex}
    (h : (s.insert x r).lookup y = some r') : y = x ∧ r' = r ∨ y ≠ x ∧ s.lookup y = some r' := by
  by_cases hyx : y = x
  · subst hyx
    rw [AList.lookup_insert] at h
    exact Or.inl ⟨rfl, (Option.some.inj h).symm⟩
  · rw [AList.lookup_insert_ne hyx] at h
    exact Or.inr ⟨hyx, h⟩

/-- Every entry after an effect comes from the entry before. -/
theorem entry (he : Effect sh allowed st st') {y : UInt64} {r' : RecordIndex}
    (hy : st'.m_dataIndexes.lookup y = some r') :
    EntryEffect allowed y st.files.data (st.m_dataIndexes.lookup y) r' := by
  have hother : st.m_dataIndexes.lookup y = some r' →
      EntryEffect allowed y st.files.data (st.m_dataIndexes.lookup y) r' := by
    intro h
    rw [h]
    exact .same r'
  cases he with
  | load x r bs m hx hmgr hrel hread hm =>
    rcases lookup_insert_cases hy with ⟨rfl, rfl⟩ | ⟨-, h⟩
    · rw [hx]
      exact .load r bs m hmgr hrel hread hm
    · exact hother h
  | edit x r m e hx hm hok ha =>
    rw [Edit.apply_dataIndexes] at hy
    rcases lookup_insert_cases hy with ⟨rfl, rfl⟩ | ⟨-, h⟩
    · rw [hx]
      exact .edit r m e hm hok ha
    · exact hother h
  | create x m blockCount hx hm =>
    rcases lookup_insert_cases hy with ⟨rfl, rfl⟩ | ⟨-, h⟩
    · rw [hx]
      exact .create m blockCount hm
    · exact hother h
  | delete x r hx ha =>
    by_cases hyx : y = x
    · subst hyx
      have hnone : (st.m_dataIndexes.erase y).lookup y = some r' := hy
      rw [AList.lookup_erase] at hnone
      cases hnone
    · have hsame : (st.m_dataIndexes.erase x).lookup y = some r' := hy
      rw [AList.lookup_erase_ne hyx] at hsame
      exact hother hsame
  | evict x r m hx hm hidle =>
    rw [evict_some hm] at hy
    rcases lookup_insert_cases hy with ⟨rfl, rfl⟩ | ⟨-, h⟩
    · rw [hx]
      exact .evict r m hm hidle
    · exact hother h

/-- What the entries hold stays the same, but for a deletion. -/
theorem sameHeld (he : Effect sh allowed st st') :
    st.SameHeld st'
      ∨ ∃ x r, allowed.delete x ∧ st.m_dataIndexes.lookup x = some r
        ∧ st' = st.deleted sh x r := by
  cases he with
  | load x r bs m hx hmgr hrel hread hm =>
    refine Or.inl ⟨rfl, rfl, fun hf _ => ?_⟩
    exact held_insert_same hf hx ⟨rfl, rfl, rfl, rfl⟩
  | edit x r m e hx hm hok ha =>
    refine Or.inl ⟨Edit.apply_delQueue, Edit.apply_trace, fun hf _ => ?_⟩
    rw [held, queued, Edit.apply_dataIndexes, Edit.apply_delQueue]
    exact held_insert_same hf hx ⟨rfl, rfl, rfl, rfl⟩
  | create x m blockCount hx hm =>
    refine Or.inl ⟨rfl, rfl, fun hf _ => ?_⟩
    exact List.Perm.of_eq (held_insert_fresh hf hx rfl rfl)
  | delete x r hx ha => exact Or.inr ⟨x, r, ha, hx, rfl⟩
  | evict x r m hx hm hidle =>
    rw [evict_some hm]
    refine Or.inl ⟨rfl, rfl, fun hf _ => ?_⟩
    exact held_insert_same hf hx ⟨rfl, rfl, rfl, rfl⟩

end Effect

/-! ## The data file -/

/-- Blocks in the data file that make up a record of an X. -/
structure Stored (f : DataFile) (pos : Int) (n : ℕ) (bs : List Block) : Prop where
  read : f.fread pos n = some bs
  sound : Sound bs
  nonempty : bs ≠ []
  count_lt : bs.length < 65536

/-- What holds of an entry of the main index and the data file. An X that keeps its
place has its blocks there, but for those marked as dirty. -/
structure EntryOk (f : DataFile) (r : RecordIndex) : Prop where
  manager : ∀ m, r.m_pBlockManager = some m → m.Inv
  stored : r.relocateBlocks = false → ∃ bs, Stored f r.m_recordStart r.m_blockCount bs
    ∧ ∀ m, r.m_pBlockManager = some m → DirtyFrame bs m.blocks ∧ m.blockCount = r.m_blockCount
  dirty : r.relocateBlocks = true → r.dirty = true

/-- The data file is divided among the free space, the regions that wait to be added
to it, those of the entries, and what is lost. -/
structure DataInv (st : Storage) (deleting : List RecordIndex) (toAdd lost : List Region) : Prop
    where
  size_eq : st.m_dataFileSize = st.files.data.size
  size_nonneg : 0 ≤ st.m_dataFileSize
  noEmpty : FreeSpaceBlockMap.NoEmptyBucket st.m_rFreeSpace
  tiles : Region.Tiles 0 st.m_dataFileSize (FreeSpaceBlockMap.regions st.m_rFreeSpace
    ++ (toAdd ++ (held usedRegion st deleting ++ lost)))
  entry : ∀ x r, st.m_dataIndexes.lookup x = some r → EntryOk st.files.data r

theorem EntryEffect.ok {allowed : Allowed} {x : UInt64} {f : DataFile} {o : Option RecordIndex}
    {r' : RecordIndex} (he : EntryEffect allowed x f o r') (h : ∀ r, o = some r → EntryOk f r) :
    EntryOk f r' := by
  cases he with
  | same r => exact h r' rfl
  | load r bs m hmgr hrel hread hm =>
    have hr := h r rfl
    obtain ⟨bs', hst, -⟩ := hr.stored hrel
    have hbs : bs' = bs := by
      have hread' := hst.read
      rw [hread] at hread'
      exact (Option.some.inj hread').symm
    subst hbs
    obtain ⟨hinv, hblocks⟩ := Blman.create_some hst.sound hst.nonempty hst.count_lt hm
    refine ⟨?_, fun _ => ⟨bs', hst, ?_⟩, hr.dirty⟩
    · rintro m' ⟨⟩
      exact hinv
    · rintro m' ⟨⟩
      rw [Blman.blockCount, hblocks]
      exact ⟨DirtyFrame.refl bs', (DataFile.fread_eq_some.mp hread).2.1⟩
  | edit r m e hm hok ha =>
    have hr := h r rfl
    have hedit := hok (hr.manager m hm)
    refine ⟨?_, ?_, ?_⟩
    · rintro m' ⟨⟩
      exact hedit.inv
    · intro hrel
      have hrel' : (r.relocateBlocks || e.relocate) = false := hrel
      rw [Bool.or_eq_false_iff] at hrel'
      obtain ⟨bs, hst, hframe⟩ := hr.stored hrel'.1
      refine ⟨bs, hst, ?_⟩
      rintro m' ⟨⟩
      obtain ⟨hf, hc⟩ := hframe m hm
      exact ⟨hf.trans (hedit.frame hrel'.2), (hedit.count hrel'.2).trans hc⟩
    · intro hrel
      have hrel' : (r.relocateBlocks || e.relocate) = true := hrel
      show (r.dirty || e.relocate) = true
      rw [Bool.or_eq_true] at hrel' ⊢
      exact hrel'.imp_left hr.dirty
  | evict r m hm hidle =>
    have hr := h r rfl
    refine ⟨?_, ?_, hr.dirty⟩
    · rintro m' ⟨⟩
    · intro hrel
      obtain ⟨bs, hst, -⟩ := hr.stored hrel
      refine ⟨bs, hst, ?_⟩
      rintro m' ⟨⟩
  | create m blockCount hm =>
    refine ⟨?_, ?_, fun _ => rfl⟩
    · rintro m' ⟨⟩
      exact hm
    · intro hrel
      cases hrel

namespace DataInv

variable {sh : Shared} {allowed : Allowed} {st st' : Storage} {deleting : List RecordIndex}
  {toAdd lost : List Region}

/-- The division of the file after the held regions have been moved around. -/
theorem tiles_perm (h : DataInv st deleting toAdd lost) {deleting' : List RecordIndex}
    {toAdd' lost' : List Region} (hsize : st'.m_dataFileSize = st.m_dataFileSize)
    (hp : (FreeSpaceBlockMap.regions st.m_rFreeSpace
        ++ (toAdd ++ (held usedRegion st deleting ++ lost))).Perm
      (FreeSpaceBlockMap.regions st'.m_rFreeSpace
        ++ (toAdd' ++ (held usedRegion st' deleting' ++ lost')))) :
    Region.Tiles 0 st'.m_dataFileSize (FreeSpaceBlockMap.regions st'.m_rFreeSpace
      ++ (toAdd' ++ (held usedRegion st' deleting' ++ lost'))) := by
  rw [hsize]
  exact h.tiles.perm hp

/-- An effect loses what it takes from the deletion queue, and nothing else. -/
theorem effect (h : DataInv st deleting toAdd lost) (he : Effect sh allowed st st')
    {lost' : List Region} (hp : (held usedRegion st deleting ++ lost).Perm
      (held usedRegion st' deleting ++ lost')) : DataInv st' deleting toAdd lost' := by
  have hd := he.sameDisk
  refine ⟨?_, ?_, ?_, h.tiles_perm hd.size ?_, ?_⟩
  · rw [hd.size, hd.files]
    exact h.size_eq
  · rw [hd.size]
    exact h.size_nonneg
  · rw [hd.free]
    exact h.noEmpty
  · rw [hd.free]
    exact (hp.append_left _).append_left _
  · intro x r hx
    rw [hd.files]
    exact (he.entry hx).ok (fun r0 h0 => h.entry x r0 h0)

end DataInv

/-! ## The index file -/

/-- The slot and the region of a record of the index file. -/
def located (e : (ℕ × ℕ) × DREC) : (ℕ × ℕ) × Region := (e.1, e.2.region)

/-- The blocks a record of the index file describes are in the data file, and have
its CRC. -/
structure Intact (sh : Shared) (f : DataFile) (d : DREC) (bs : List Block) : Prop where
  stored : Stored f d.m_recordStart d.m_blockCount bs
  crc : Blman.blocksCrc32 sh bs = d.m_crc32

/-- An entry without a slot has no region. -/
def RecordIndex.Placed (r : RecordIndex) : Prop :=
  r.slot = none → r.m_recordStart = -1 ∧ r.m_IB_recordOffset = -1

/-- An entry of the main index is as the index file has it. -/
structure SlotOk (file : IndexFile) (x : UInt64) (r : RecordIndex) : Prop where
  placed : r.Placed
  written : ∀ slot, r.slot = some slot → (slot, r.toDREC x) ∈ IndexBlock.fileEntries 0 file

/-- The records of the index file are those of the entries, and what is lost. -/
structure IndexInv (sh : Shared) (st : Storage) (deleting : List RecordIndex)
    (lost : List ((ℕ × ℕ) × Region)) : Prop where
  index : st.m_pDataIndexDiskWriter.Inv st.files.index
  claims : ((IndexBlock.fileEntries 0 st.files.index).map located).Perm
    (held owned st deleting ++ lost)
  live : ∀ x r, st.m_dataIndexes.lookup x = some r → SlotOk st.files.index x r
  gone : ∀ x r, st.m_pRIDelQueue.lookup x = some r → r.Placed
  taken : ∀ r ∈ deleting, r.Placed
  intact : ∀ e ∈ IndexBlock.fileEntries 0 st.files.index, ∃ bs, Intact sh st.files.data e.2 bs

theorem RecordIndex.SamePlace.placed {r r' : RecordIndex} (h : r.SamePlace r') (hr : r.Placed) :
    r'.Placed := by
  intro hslot
  rw [h.slot_eq] at hslot
  rw [h.start, h.offset]
  exact hr hslot

theorem SlotOk.same {file : IndexFile} {x : UInt64} {r r' : RecordIndex} (h : SlotOk file x r)
    (hr : r.SamePlace r') (hcrc : r'.m_crc32 = r.m_crc32) : SlotOk file x r' where
  placed := hr.placed h.placed
  written slot hslot := by
    rw [hr.slot_eq] at hslot
    have hd : r'.toDREC x = r.toDREC x := by
      rw [RecordIndex.toDREC, RecordIndex.toDREC, hr.start, hr.count, hcrc]
    rw [hd]
    exact h.written slot hslot

theorem SlotOk.fresh {file : IndexFile} {x : UInt64} {r : RecordIndex}
    (hstart : r.m_recordStart = -1) (hoff : r.m_IB_recordOffset = -1) : SlotOk file x r where
  placed _ := ⟨hstart, hoff⟩
  written slot hslot := by
    rw [RecordIndex.slot_unwritten hoff] at hslot
    cases hslot

theorem EntryEffect.slotOk {allowed : Allowed} {f : DataFile} {file : IndexFile} {x : UInt64}
    {o : Option RecordIndex} {r' : RecordIndex} (he : EntryEffect allowed x f o r')
    (h : ∀ r, o = some r → SlotOk file x r) : SlotOk file x r' := by
  cases he with
  | same r => exact h r' rfl
  | load r bs m hmgr hrel hread hm => exact (h r rfl).same ⟨rfl, rfl, rfl, rfl⟩ rfl
  | edit r m e hm hok ha => exact (h r rfl).same ⟨rfl, rfl, rfl, rfl⟩ rfl
  | evict r m hm hidle => exact (h r rfl).same ⟨rfl, rfl, rfl, rfl⟩ rfl
  | create m blockCount hm => exact SlotOk.fresh rfl rfl

theorem owned_eq {r : RecordIndex} {slot : ℕ × ℕ} (h : r.slot = some slot) :
    owned r = [(slot, r.region)] := by
  rw [owned, h]

/-- What an entry owns, without its slot. -/
theorem owned_map_snd {r : RecordIndex} (hr : r.Placed)
    (hpos : ∀ slot, r.slot = some slot → 0 ≤ r.m_recordStart) :
    (owned r).map Prod.snd = usedRegion r := by
  cases hslot : r.slot with
  | none =>
    rw [owned, hslot, usedRegion, if_neg (not_not_intro (hr hslot).1)]
    rfl
  | some slot =>
    have hne : r.m_recordStart ≠ -1 := by
      have := hpos slot hslot
      omega
    rw [owned_eq hslot, usedRegion, if_pos hne]
    rfl

namespace IndexInv

variable {sh : Shared} {st : Storage} {deleting : List RecordIndex}
  {lost : List ((ℕ × ℕ) × Region)}

/-- What is held of the index file is in it. -/
theorem exists_entry (h : IndexInv sh st deleting lost) {c : (ℕ × ℕ) × Region}
    (hc : c ∈ held owned st deleting ++ lost) :
    ∃ d, (c.1, d) ∈ IndexBlock.fileEntries 0 st.files.index ∧ d.region = c.2 := by
  obtain ⟨⟨slot, d⟩, he, rfl⟩ := List.mem_map.mp (h.claims.mem_iff.mpr hc)
  exact ⟨d, he, rfl⟩

theorem start_nonneg (h : IndexInv sh st deleting lost) {r : RecordIndex} {slot : ℕ × ℕ}
    (hr : ∀ c ∈ owned r, c ∈ held owned st deleting) (hslot : r.slot = some slot) :
    0 ≤ r.m_recordStart := by
  have hmem : (slot, r.region) ∈ owned r := by
    rw [owned_eq hslot]
    exact List.mem_singleton_self _
  obtain ⟨d, hd, hreg⟩ := h.exists_entry (List.mem_append_left lost (hr _ hmem))
  obtain ⟨bs, hbs⟩ := h.intact _ hd
  have hpos : r.m_recordStart = d.m_recordStart := (congrArg Region.pos hreg).symm
  have hread := (DataFile.fread_eq_some.mp hbs.stored.read).1.1
  rw [hpos]
  exact hread

/-- Every entry is placed, and owns what its region is. -/
theorem owned_live (h : IndexInv sh st deleting lost) {x : UInt64} {r : RecordIndex}
    (hx : st.m_dataIndexes.lookup x = some r) : (owned r).map Prod.snd = usedRegion r :=
  owned_map_snd (h.live x r hx).placed fun _ hslot =>
    h.start_nonneg (fun _ hc => mem_held.mpr (Or.inl ⟨x, r, hx, hc⟩)) hslot

theorem owned_gone (h : IndexInv sh st deleting lost) {x : UInt64} {r : RecordIndex}
    (hx : st.m_pRIDelQueue.lookup x = some r) : (owned r).map Prod.snd = usedRegion r :=
  owned_map_snd (h.gone x r hx) fun _ hslot =>
    h.start_nonneg (fun _ hc => mem_held.mpr (Or.inr (Or.inl ⟨x, r, hx, hc⟩))) hslot

theorem owned_taken (h : IndexInv sh st deleting lost) {r : RecordIndex} (hr : r ∈ deleting) :
    (owned r).map Prod.snd = usedRegion r :=
  owned_map_snd (h.taken r hr) fun _ hslot =>
    h.start_nonneg (fun _ hc => mem_held.mpr (Or.inr (Or.inr ⟨r, hr, hc⟩))) hslot

/-- The regions of all that is held. -/
theorem held_map_snd (h : IndexInv sh st deleting lost) :
    (held owned st deleting).map Prod.snd = held usedRegion st deleting := by
  rw [held, held, queued, queued, List.map_append, List.map_append, KeyMap.collect, KeyMap.collect,
    KeyMap.collect, KeyMap.collect, List.map_flatMap, List.map_flatMap, List.map_flatMap]
  refine congrArg₂ _ ?_ (congrArg₂ _ ?_ ?_)
  · exact List.flatMap_congr fun e he => h.owned_live (KeyMap.mem_entries.mp he)
  · exact List.flatMap_congr fun e he => h.owned_gone (KeyMap.mem_entries.mp he)
  · exact List.flatMap_congr fun r hr => h.owned_taken hr

theorem replaced_map_snd (h : IndexInv sh st deleting lost) (x : UInt64) :
    (replaced owned st x).map Prod.snd = replaced usedRegion st x := by
  rw [replaced, replaced]
  cases hq : st.m_pRIDelQueue.lookup x with
  | none => rfl
  | some q =>
    rw [Option.toList_some, List.flatMap_singleton, List.flatMap_singleton]
    exact h.owned_gone hq

/-- The regions of the records of the index file. -/
theorem regions_perm (h : IndexInv sh st deleting lost) :
    ((IndexBlock.fileEntries 0 st.files.index).map fun e => e.2.region).Perm
      (held usedRegion st deleting ++ lost.map Prod.snd) := by
  have hp := h.claims.map Prod.snd
  rw [List.map_map, List.map_append, h.held_map_snd] at hp
  exact hp

/-- A slot holds one record. -/
theorem slot_unique {file : IndexFile} {e e' : (ℕ × ℕ) × DREC}
    (he : e ∈ IndexBlock.fileEntries 0 file) (he' : e' ∈ IndexBlock.fileEntries 0 file)
    (hslot : e.1 = e'.1) : e = e' :=
  List.inj_on_of_nodup_map (IndexBlock.fileEntries_nodup 0 file) he he' hslot

/-- The slot of a live X is not that of a deleted one, or a lost one. -/
theorem slot_notMem (h : IndexInv sh st deleting lost) {x : UInt64} {r : RecordIndex}
    {slot : ℕ × ℕ} (hx : st.m_dataIndexes.lookup x = some r) (hslot : r.slot = some slot) :
    slot ∉ (queued owned st deleting ++ lost).map Prod.fst := by
  have hslots := IndexBlock.fileEntries_nodup 0 st.files.index
  have hmap : (IndexBlock.fileEntries 0 st.files.index).map Prod.fst
      = ((IndexBlock.fileEntries 0 st.files.index).map located).map Prod.fst := by
    rw [List.map_map]
    rfl
  rw [hmap] at hslots
  have hp := (h.claims.trans ((held_perm owned deleting hx).append_right lost)).map Prod.fst
  rw [owned_eq hslot, List.append_assoc, List.append_assoc] at hp
  have hnodup := (List.nodup_cons.mp (hp.nodup_iff.mp hslots)).1
  intro hmem
  refine hnodup ?_
  obtain ⟨c, hc, rfl⟩ := List.mem_map.mp hmem
  exact List.mem_map.mpr ⟨c, List.mem_append_right [] (List.mem_append_right _ hc), rfl⟩

end IndexInv

/-- What holds between the entries, the free space and the two files. -/
structure StorageInv (sh : Shared) (st : Storage) (deleting : List RecordIndex)
    (toAdd : List Region) (lost : List ((ℕ × ℕ) × Region)) : Prop where
  data : DataInv st deleting toAdd (lost.map Prod.snd)
  index : IndexInv sh st deleting lost

namespace StorageInv

variable {sh : Shared} {allowed : Allowed} {st st' : Storage} {deleting : List RecordIndex}
  {toAdd : List Region} {lost : List ((ℕ × ℕ) × Region)}

/-- The data file is divided among the free space, what waits to be added to it, and
the records of the index file. -/
theorem tiles (h : StorageInv sh st deleting toAdd lost) :
    Region.Tiles 0 st.m_dataFileSize (FreeSpaceBlockMap.regions st.m_rFreeSpace
      ++ (toAdd ++ (IndexBlock.fileEntries 0 st.files.index).map fun e => e.2.region)) :=
  h.data.tiles.perm ((h.index.regions_perm.symm.append_left _).append_left _)

/-- An effect loses what it takes from the deletion queue, and nothing else. -/
theorem effect (h : StorageInv sh st deleting toAdd lost) (he : Effect sh allowed st st') :
    st.SameHeld st' ∧ StorageInv sh st' deleting toAdd lost
      ∨ ∃ x r, allowed.delete x ∧ st.m_dataIndexes.lookup x = some r ∧ st' = st.deleted sh x r
        ∧ StorageInv sh st' deleting toAdd (replaced owned st x ++ lost) := by
  have hd := he.sameDisk
  have hindex : ∀ lost', (held owned st deleting ++ lost).Perm (held owned st' deleting ++ lost') →
      (∀ x r, st'.m_pRIDelQueue.lookup x = some r → r.Placed) →
      IndexInv sh st' deleting lost' := by
    intro lost' hp hgone
    refine ⟨?_, ?_, ?_, hgone, h.index.taken, ?_⟩
    · rw [hd.index, hd.files]
      exact h.index.index
    · rw [hd.files]
      exact h.index.claims.trans hp
    · intro x r hx
      rw [hd.files]
      exact (he.entry hx).slotOk (fun r0 h0 => h.index.live x r0 h0)
    · rw [hd.files]
      exact h.index.intact
  rcases he.sameHeld with hs | ⟨x, r, ha, hx, rfl⟩
  · refine Or.inl ⟨hs, h.data.effect he ?_, hindex lost ?_ ?_⟩
    · exact (hs.held usedRegion_place deleting).symm.append_right _
    · exact (hs.held owned_place deleting).symm.append_right _
    · rw [hs.delQueue]
      exact h.index.gone
  · refine Or.inr ⟨x, r, ha, hx, rfl, h.data.effect he ?_, hindex _ ?_ ?_⟩
    · rw [List.map_append, h.index.replaced_map_snd, ← List.append_assoc]
      exact (held_delete sh usedRegion_place hx).append_right _
    · rw [← List.append_assoc]
      exact (held_delete sh owned_place hx).append_right _
    · intro y q hq
      rcases Effect.lookup_insert_cases hq with ⟨-, rfl⟩ | ⟨-, hq'⟩
      · exact (deletedCopy_place r).placed (h.index.live x r hx).placed
      · exact h.index.gone y q hq'

end StorageInv

end TransDB
