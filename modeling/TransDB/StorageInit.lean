/-
Starting on files that a store has left.

`FilesOk` is what a start needs of the two files: regions that do not overlap, and
blocks that are what the records of the index file say. It says nothing about the
keys, so a key can be in the index file twice; then one of its records is loaded and
the others are lost, which costs their space until the records are erased, but
nothing else. `DefragmentFreeSpace` recomputes the free space from the same file.
-/
import TransDB.DiskWriterDelete

set_option autoImplicit false

namespace TransDB

open DiskWriter Storage

/-! ## The files -/

/-- Files that a store can be started on. -/
structure FilesOk (sh : Shared) (f : Files) : Prop where
  counted : IndexBlock.Counted f.index
  size_nonneg : 0 ≤ f.data.size
  intact : ∀ e ∈ IndexBlock.fileEntries 0 f.index, ∃ bs, Intact sh f.data e.2 bs
  apart : ((IndexBlock.fileEntries 0 f.index).map fun e => e.2.region).Pairwise Region.Apart

/-- A record of blocks in the file describes a region of the file. -/
theorem Intact.inside {sh : Shared} {f : DataFile} {d : DREC} {bs : List Block}
    (h : Intact sh f d bs) : 0 < d.region.len ∧ 0 ≤ d.region.pos ∧ d.region.stop ≤ f.size := by
  obtain ⟨hin, hlen, -⟩ := DataFile.fread_eq_some.mp h.stored.read
  have hpos : 0 < bs.length := List.length_pos_iff.mpr h.stored.nonempty
  rw [hlen] at hpos
  have hoff := DataFile.offset_le hpos
  have hblock : (0 : Int) < BLOCK_SIZE := by decide
  refine ⟨?_, hin⟩
  show 0 < (d.m_blockCount : Int) * BLOCK_SIZE
  omega

theorem FilesOk.inside {sh : Shared} {f : Files} (h : FilesOk sh f) {e : (ℕ × ℕ) × DREC}
    (he : e ∈ IndexBlock.fileEntries 0 f.index) :
    0 < e.2.region.len ∧ 0 ≤ e.2.region.pos ∧ e.2.region.stop ≤ f.data.size := by
  obtain ⟨bs, hbs⟩ := h.intact e he
  exact hbs.inside

/-- A store leaves such files at any time. -/
theorem StorageInv.filesOk {sh : Shared} {st : Storage} {deleting : List RecordIndex}
    {toAdd : List Region} {lost : List ((ℕ × ℕ) × Region)}
    (h : StorageInv sh st deleting toAdd lost) : FilesOk sh st.files where
  counted := h.index.index.counted
  size_nonneg := by
    rw [← h.data.size_eq]
    exact h.data.size_nonneg
  intact := h.index.intact
  apart := (List.pairwise_append.mp (List.pairwise_append.mp h.tiles.apart).2.1).2.1

/-- No files, yet. -/
theorem FilesOk.empty (sh : Shared) : FilesOk sh ⟨⟨fun _ => 0, 0⟩, []⟩ where
  counted := ⟨Nat.zero_le _, fun b hb => by cases hb⟩
  size_nonneg := Int.le_refl _
  intact e he := by cases he
  apart := List.Pairwise.nil

/-! ## Filling the main index -/

section FillMap

open IndexBlock

variable {order : List ((ℕ × ℕ) × DREC)} {m : RecordIndexMap}

theorem fillMap_cons (e : (ℕ × ℕ) × DREC) (es : List ((ℕ × ℕ) × DREC)) (m : RecordIndexMap) :
    fillMap (e :: es) m
      = fillMap es (if e.2.m_key ∈ m then m else m.insert e.2.m_key (loadedIndex e.1 e.2)) := rfl

/-- Every entry comes from a record. -/
theorem lookup_fillMap_some {x : UInt64} {r : RecordIndex}
    (h : (fillMap order m).lookup x = some r) :
    m.lookup x = some r ∨ ∃ e ∈ order, e.2.m_key = x ∧ r = loadedIndex e.1 e.2 := by
  induction order generalizing m with
  | nil => exact Or.inl h
  | cons e es ih =>
    rw [fillMap_cons] at h
    rcases ih h with h | ⟨f, hf, hkey, hr⟩
    · by_cases hmem : e.2.m_key ∈ m
      · rw [if_pos hmem] at h
        exact Or.inl h
      · rw [if_neg hmem] at h
        rcases Effect.lookup_insert_cases h with ⟨rfl, rfl⟩ | ⟨-, h⟩
        · exact Or.inr ⟨e, List.mem_cons_self, rfl, rfl⟩
        · exact Or.inl h
    · exact Or.inr ⟨f, List.mem_cons_of_mem _ hf, hkey, hr⟩

theorem owned_loadedIndex {e : (ℕ × ℕ) × DREC} (he : e.1.2 < slotsPerBlock) :
    owned (loadedIndex e.1 e.2) = [located e] :=
  owned_eq (loadedIndex_slot e.1 e.2 he)

/-- A record is held by an entry, or lost. -/
theorem fillMap_owned (hslots : ∀ e ∈ order, e.1.2 < slotsPerBlock) :
    ∃ lost, (order.map located ++ KeyMap.collect (fun _ => owned) m).Perm
      (KeyMap.collect (fun _ => owned) (fillMap order m) ++ lost) := by
  induction order generalizing m with
  | nil => exact ⟨[], List.Perm.of_eq (List.append_nil _).symm⟩
  | cons e es ih =>
    rw [fillMap_cons, List.map_cons]
    have hes : ∀ e ∈ es, e.1.2 < slotsPerBlock := fun f hf => hslots f (List.mem_cons_of_mem _ hf)
    by_cases hmem : e.2.m_key ∈ m
    · rw [if_pos hmem]
      obtain ⟨lost, hp⟩ := ih (m := m) hes
      refine ⟨located e :: lost, ?_⟩
      rw [List.cons_append]
      exact (hp.cons _).trans List.perm_middle.symm
    · rw [if_neg hmem]
      obtain ⟨lost, hp⟩ := ih (m := m.insert e.2.m_key (loadedIndex e.1 e.2)) hes
      refine ⟨lost, List.Perm.trans ?_ hp⟩
      rw [KeyMap.collect_insert, owned_loadedIndex (hslots e List.mem_cons_self),
        KeyMap.collect_erase_of_none (AList.lookup_eq_none.mpr hmem)]
      exact List.perm_middle.symm

end FillMap

/-! ## `Storage::Init` -/

/-- A store as `Init` makes it from the file as it has found, or made, it. -/
def startOn (order : List ((ℕ × ℕ) × DREC)) (files : Files) (log : List FileWrite) : Storage where
  files := files
  trace := { writes := log }
  m_dataFileSize := files.data.size
  m_pDataIndexDiskWriter :=
    (IndexBlock.new.Init files.index order (some ∅) ∅ files.data.size).2.1
  m_dataIndexes := IndexBlock.fillMap order ∅
  m_memoryUsed := 0
  m_rFreeSpace := (IndexBlock.new.Init files.index order (some ∅) ∅ files.data.size).2.2.2
  m_pQueue := ∅
  m_pRIDelQueue := ∅

section Init

variable {sh : Shared} {order : List ((ℕ × ℕ) × DREC)} {files : Files}

theorem init_freeSpace (hf : FilesOk sh files)
    (horder : order.Perm (IndexBlock.fileEntries 0 files.index)) (ib : IndexBlock)
    (m : Option RecordIndexMap) (fs : FreeSpaceBlockMap) :
    (ib.Init files.index order m fs files.data.size).1 = .ok
      ∧ FreeSpaceBlockMap.NoEmptyBucket (ib.Init files.index order m fs files.data.size).2.2.2
      ∧ Region.Tiles 0 files.data.size
        (FreeSpaceBlockMap.regions (ib.Init files.index order m fs files.data.size).2.2.2
          ++ (IndexBlock.fileEntries 0 files.index).map fun e => e.2.region)
      ∧ (FreeSpaceBlockMap.regions
          (ib.Init files.index order m fs files.data.size).2.2.2).Pairwise Region.Clear := by
  have hpos : ∀ e ∈ IndexBlock.fileEntries 0 files.index, 0 < e.2.region.len :=
    fun e he => (hf.inside he).1
  have hin : ∀ e ∈ IndexBlock.fileEntries 0 files.index,
      0 ≤ e.2.region.pos ∧ e.2.region.stop ≤ files.data.size := fun e he => (hf.inside he).2
  obtain ⟨hok, -, hrest⟩ := IndexBlock.Init_freeSpace horder hf.size_nonneg hpos hin hf.apart
  exact ⟨hok, hrest⟩

theorem slot_lt {file : IndexFile} {e : (ℕ × ℕ) × DREC} (he : e ∈ IndexBlock.fileEntries 0 file) :
    e.1.2 < slotsPerBlock := by
  obtain ⟨⟨n, j⟩, d⟩ := e
  obtain ⟨b, -, hd, -⟩ := IndexBlock.mem_fileEntries.mp he
  rw [← b.size_eq]
  exact (List.getElem?_eq_some_iff.mp hd).1

/-- The entry of a record that is loaded. -/
theorem loadedIndex_ok (hf : FilesOk sh files) {e : (ℕ × ℕ) × DREC}
    (he : e ∈ IndexBlock.fileEntries 0 files.index) :
    EntryOk files.data (IndexBlock.loadedIndex e.1 e.2)
      ∧ SlotOk files.index e.2.m_key (IndexBlock.loadedIndex e.1 e.2) := by
  have hslot := IndexBlock.loadedIndex_slot e.1 e.2 (slot_lt he)
  obtain ⟨bs, hbs⟩ := hf.intact e he
  constructor
  · refine ⟨?_, fun _ => ⟨bs, hbs.stored, ?_⟩, ?_⟩
    · rintro m ⟨⟩
    · rintro m ⟨⟩
    · intro hrel
      cases hrel
  · constructor
    · intro hnone
      rw [hslot] at hnone
      cases hnone
    · intro slot hsome
      rw [hslot] at hsome
      cases hsome
      exact he

theorem startOn_inv (hf : FilesOk sh files)
    (horder : order.Perm (IndexBlock.fileEntries 0 files.index)) (log : List FileWrite) :
    ∃ lost, StorageInv sh (startOn order files log) [] [] lost := by
  have hslots : ∀ e ∈ order, e.1.2 < slotsPerBlock :=
    fun e he => slot_lt (horder.mem_iff.mp he)
  obtain ⟨lost, hlost⟩ := fillMap_owned (m := ∅) hslots
  rw [KeyMap.collect_empty, List.append_nil] at hlost
  have hlive : ∀ x r, (IndexBlock.fillMap order ∅).lookup x = some r →
      EntryOk files.data r ∧ SlotOk files.index x r := by
    intro x r hx
    rcases lookup_fillMap_some hx with hnone | ⟨e, he, rfl, rfl⟩
    · cases hnone
    · exact loadedIndex_ok hf (horder.mem_iff.mp he)
  obtain ⟨-, hne, ht, -⟩ := init_freeSpace hf horder IndexBlock.new (some ∅) ∅
  have hindex : IndexInv sh (startOn order files log) [] lost := by
    refine ⟨IndexBlock.Init_inv hf.counted ∅, ?_, fun x r hx => (hlive x r hx).2, ?_, ?_, hf.intact⟩
    · refine (horder.map located).symm.trans (hlost.trans (List.Perm.of_eq ?_))
      show _ = KeyMap.collect (fun _ => owned) (IndexBlock.fillMap order ∅) ++ [] ++ lost
      rw [List.append_nil]
    · intro x r hx
      cases hx
    · intro r hr
      cases hr
  refine ⟨lost, ⟨rfl, hf.size_nonneg, hne, ?_, fun x r hx => (hlive x r hx).1⟩, hindex⟩
  rw [List.nil_append]
  exact ht.perm (hindex.regions_perm.append_left _)

/-- The second half of `Init`, on the file as it is then. -/
theorem load_eq (hf : FilesOk sh files)
    (horder : order.Perm (IndexBlock.fileEntries 0 files.index)) (log : List FileWrite) :
    (IndexBlock.new.Init files.index order (some ∅) ∅ files.data.size).1 = .ok
      ∧ { startOn order files log with
          m_dataIndexes :=
            (IndexBlock.new.Init files.index order (some ∅) ∅ files.data.size).2.2.1.getD ∅ }
        = startOn order files log := by
  refine ⟨(init_freeSpace hf horder IndexBlock.new (some ∅) ∅).1, ?_⟩
  rw [IndexBlock.Init_map]
  rfl

/-- A start does not fail, but for a data file that is empty and cannot be made
larger. -/
theorem Init_eq (hf : FilesOk sh files)
    (horder : order.Perm (IndexBlock.fileEntries 0 files.index)) {ReallocSize : Int}
    (forceStartup : Bool) (hsize : files.data.size = 0 → 0 ≤ ReallocSize) :
    ∃ files' log, Storage.Init ReallocSize forceStartup order files
        = some (startOn order files' log) ∧ FilesOk sh files' ∧ files'.index = files.index
      ∧ ∀ pos n bs, files.data.fread pos n = some bs → files'.data.fread pos n = some bs := by
  have hfail : ¬ (files.data.size = 0 ∧ ReallocSize < 0) := by
    rintro ⟨hzero, hneg⟩
    have := hsize hzero
    omega
  unfold Storage.Init
  rw [if_neg hfail]
  by_cases hzero : files.data.size = 0
  · -- there is nothing in the file, so no record is in the index
    have hnil : IndexBlock.fileEntries 0 files.index = [] := by
      refine List.eq_nil_iff_forall_not_mem.mpr fun e he => ?_
      have hin := hf.inside he
      rw [hzero, Region.stop] at hin
      omega
    have hf' : FilesOk sh (files.apply (.resize ReallocSize)) := by
      refine ⟨hf.counted, hsize hzero, ?_, ?_⟩
      · show ∀ e ∈ IndexBlock.fileEntries 0 files.index, _
        rw [hnil]
        intro e he
        cases he
      · show List.Pairwise _ ((IndexBlock.fileEntries 0 files.index).map _)
        rw [hnil]
        exact List.Pairwise.nil
    obtain ⟨hok, hload⟩ := load_eq hf' horder [.resize ReallocSize]
    refine ⟨files.apply (.resize ReallocSize), [.resize ReallocSize], ?_, hf', rfl, ?_⟩
    · rw [if_pos hzero, ReallocDataFile, max_self]
      dsimp only [write]
      rw [hzero, Int.zero_add, List.nil_append]
      show (if (IndexBlock.new.Init (files.apply (.resize ReallocSize)).index order (some ∅) ∅
        (files.apply (.resize ReallocSize)).data.size).1 = .ok then _ else _) = _
      rw [if_pos hok, ← hload]
      rfl
    · intro pos n bs hread
      refine DataFile.fread_congr hread ?_ ?_
      · rw [hzero]
        exact hsize hzero
      · intro p hlo hhi
        have hin := (DataFile.fread_eq_some.mp hread).1
        omega
  · obtain ⟨hok, hload⟩ := load_eq hf horder []
    refine ⟨files, [], ?_, hf, rfl, fun _ _ _ hread => hread⟩
    rw [if_neg hzero]
    dsimp only
    rw [if_pos hok, ← hload]
    rfl

/-- A start that succeeds. -/
theorem Init_cases (hf : FilesOk sh files)
    (horder : order.Perm (IndexBlock.fileEntries 0 files.index)) {ReallocSize : Int}
    {forceStartup : Bool} {st : Storage}
    (h : Storage.Init ReallocSize forceStartup order files = some st) :
    ∃ files' log, st = startOn order files' log ∧ FilesOk sh files' ∧ files'.index = files.index
      ∧ ∀ pos n bs, files.data.fread pos n = some bs → files'.data.fread pos n = some bs := by
  have hsize : files.data.size = 0 → 0 ≤ ReallocSize := by
    intro hzero
    by_contra hneg
    unfold Storage.Init at h
    rw [if_pos ⟨hzero, by omega⟩] at h
    cases h
  obtain ⟨files', log, hinit, hrest⟩ := Init_eq hf horder forceStartup hsize
  rw [hinit] at h
  cases h
  exact ⟨files', log, rfl, hrest⟩

theorem StorageInv.defragmentFreeSpace {st : Storage} {lost : List ((ℕ × ℕ) × Region)}
    (h : StorageInv sh st [] [] lost)
    (horder : order.Perm (IndexBlock.fileEntries 0 st.files.index)) :
    StorageInv sh (DefragmentFreeSpace order st) [] [] lost := by
  have hf := h.filesOk
  obtain ⟨-, hne, ht, -⟩ := init_freeSpace hf horder st.m_pDataIndexDiskWriter none st.m_rFreeSpace
  rw [← h.data.size_eq] at hne ht
  have hib : (DefragmentFreeSpace order st).m_pDataIndexDiskWriter = st.m_pDataIndexDiskWriter :=
    h.index.index.Init_none
  refine ⟨⟨h.data.size_eq, h.data.size_nonneg, hne, ?_, h.data.entry⟩, ?_⟩
  · exact ht.perm (h.index.regions_perm.append_left _)
  · refine ⟨?_, h.index.claims, h.index.live, h.index.gone, h.index.taken, h.index.intact⟩
    rw [hib]
    exact h.index.index

/-- No two of the regions `DefragmentFreeSpace` finds touch. -/
theorem StorageInv.defragmentFreeSpace_clear {st : Storage} {lost : List ((ℕ × ℕ) × Region)}
    (h : StorageInv sh st [] [] lost)
    (horder : order.Perm (IndexBlock.fileEntries 0 st.files.index)) :
    (FreeSpaceBlockMap.regions (DefragmentFreeSpace order st).m_rFreeSpace).Pairwise
      Region.Clear := by
  obtain ⟨-, -, -, hclear⟩ :=
    init_freeSpace h.filesOk horder st.m_pDataIndexDiskWriter none st.m_rFreeSpace
  rw [← h.data.size_eq] at hclear
  exact hclear

end Init

end TransDB
