/-
Space given back: the deletion queue, and the regions of relocated items.

Taking the deletion queue moves what its entries have to the entries the disk
thread holds. Each of them then gives its region to the free space and its slot
back to the index file.
-/
import TransDB.DiskWriterInv

set_option autoImplicit false

namespace TransDB

open DiskWriter Storage

/-! ## The free space -/

theorem Storage.foldl_addFreeSpace (rs : List Region) (st : Storage) :
    rs.foldl Storage.addFreeSpace st = { st with
      m_rFreeSpace := rs.foldl (fun m r => m.AddFreeSpace r.pos r.len) st.m_rFreeSpace
      trace := { st.trace with freed := st.trace.freed ++ rs } } := by
  induction rs generalizing st with
  | nil =>
    rw [List.foldl_nil, List.foldl_nil, List.append_nil]
  | cons r rs ih =>
    rw [List.foldl_cons, ih, List.foldl_cons]
    rw [Storage.addFreeSpace]
    dsimp only
    rw [List.append_assoc, List.singleton_append]

namespace DataInv

variable {st : Storage} {deleting : List RecordIndex} {toAdd lost : List Region} {r : Region}

/-- A region that waits is added to the free space. -/
theorem addFreeSpace (h : DataInv st deleting (r :: toAdd) lost) :
    DataInv (st.addFreeSpace r) deleting toAdd lost := by
  have hmem : r ∈ FreeSpaceBlockMap.regions st.m_rFreeSpace
      ++ (r :: toAdd ++ (held usedRegion st deleting ++ lost)) :=
    List.mem_append_right _ List.mem_cons_self
  have hspec := FreeSpaceBlockMap.AddFreeSpace_spec h.noEmpty (h.tiles.inside r hmem).1
    (h.tiles.pos r hmem)
  refine ⟨h.size_eq, h.size_nonneg, hspec.2, ?_, h.entry⟩
  refine h.tiles.perm ?_
  refine List.Perm.trans ?_ ((hspec.1.symm).append_right _)
  exact List.perm_middle

theorem foldl_addFreeSpace {rs : List Region} (h : DataInv st deleting (rs ++ toAdd) lost) :
    DataInv (rs.foldl Storage.addFreeSpace st) deleting toAdd lost := by
  induction rs generalizing st with
  | nil => exact h
  | cons r rs ih => exact ih h.addFreeSpace

/-- An entry the disk thread has taken, as the region it gives back. -/
theorem deleting_cons {q : RecordIndex} (h : DataInv st (q :: deleting) toAdd lost) :
    DataInv st deleting (usedRegion q ++ toAdd) lost := by
  refine ⟨h.size_eq, h.size_nonneg, h.noEmpty, h.tiles.perm (List.Perm.append_left _ ?_), h.entry⟩
  rw [held, held, queued, queued, List.flatMap_cons, List.perm_iff_count]
  intro reg
  simp only [List.count_append]
  omega

/-- Only the members that `DataInv` is about matter to it. -/
theorem congr {st' : Storage} (h : DataInv st deleting toAdd lost)
    (hdata : st'.files.data = st.files.data) (hsize : st'.m_dataFileSize = st.m_dataFileSize)
    (hfree : st'.m_rFreeSpace = st.m_rFreeSpace) (hlive : st'.m_dataIndexes = st.m_dataIndexes)
    (hgone : st'.m_pRIDelQueue = st.m_pRIDelQueue) : DataInv st' deleting toAdd lost := by
  refine ⟨?_, ?_, ?_, ?_, ?_⟩
  · rw [hsize, hdata]
    exact h.size_eq
  · rw [hsize]
    exact h.size_nonneg
  · rw [hfree]
    exact h.noEmpty
  · rw [hsize, hfree, held, queued, hlive, hgone]
    exact h.tiles
  · rw [hlive, hdata]
    exact h.entry

end DataInv

theorem StorageInv.addFreeSpace {sh : Shared} {st : Storage} {deleting : List RecordIndex}
    {toAdd : List Region} {lost : List ((ℕ × ℕ) × Region)} {r : Region}
    (h : StorageInv sh st deleting (r :: toAdd) lost) :
    StorageInv sh (st.addFreeSpace r) deleting toAdd lost :=
  ⟨h.data.addFreeSpace, ⟨h.index.index, h.index.claims, h.index.live, h.index.gone, h.index.taken,
    h.index.intact⟩⟩

/-! ## Taking the deletion queue -/

section GetDeleted

variable {st st' : Storage} {order : List UInt64} {rDeleteQueue : List RecordIndex}

theorem getDeleted_cases (h : getDeleted st order = some (rDeleteQueue, st')) :
    order.Perm st.m_pRIDelQueue.keys ∧ rDeleteQueue = order.filterMap st.m_pRIDelQueue.lookup
      ∧ st' = { st with m_pRIDelQueue := ∅ } := by
  rw [getDeleted] at h
  by_cases hp : order.Perm st.m_pRIDelQueue.keys
  · rw [if_pos hp] at h
    cases h
    exact ⟨hp, rfl, rfl⟩
  · rw [if_neg hp] at h
    cases h

/-- What the queue had, the disk thread has. -/
theorem getDeleted_held {γ : Type} (f : RecordIndex → List γ)
    (h : getDeleted st order = some (rDeleteQueue, st')) :
    (queued f st' rDeleteQueue).Perm (queued f st []) := by
  obtain ⟨hp, rfl, rfl⟩ := getDeleted_cases h
  rw [queued, queued, KeyMap.collect_eq, KeyMap.collect_eq, List.flatMap_nil, List.append_nil]
  exact (KeyMap.lookup_keys_perm hp).flatMap_right f

theorem getDeleted_mem (h : getDeleted st order = some (rDeleteQueue, st')) {r : RecordIndex}
    (hr : r ∈ rDeleteQueue) : ∃ x, st.m_pRIDelQueue.lookup x = some r := by
  obtain ⟨-, rfl, -⟩ := getDeleted_cases h
  obtain ⟨x, -, hx⟩ := List.mem_filterMap.mp hr
  exact ⟨x, hx⟩

theorem DataInv.getDeleted {toAdd lost : List Region} (hinv : DataInv st [] toAdd lost)
    (h : getDeleted st order = some (rDeleteQueue, st')) :
    DataInv st' rDeleteQueue toAdd lost := by
  have hq := getDeleted_held usedRegion h
  obtain ⟨-, -, rfl⟩ := getDeleted_cases h
  refine ⟨hinv.size_eq, hinv.size_nonneg, hinv.noEmpty, hinv.tiles.perm ?_, hinv.entry⟩
  exact (((hq.symm.append_left _).append_right _).append_left _).append_left _

theorem StorageInv.getDeleted {sh : Shared} {toAdd : List Region}
    {lost : List ((ℕ × ℕ) × Region)} (hinv : StorageInv sh st [] toAdd lost)
    (h : getDeleted st order = some (rDeleteQueue, st')) :
    StorageInv sh st' rDeleteQueue toAdd lost := by
  refine ⟨hinv.data.getDeleted h, ?_⟩
  have hq := getDeleted_held owned h
  have htaken : ∀ r ∈ rDeleteQueue, r.Placed := by
    intro r hr
    obtain ⟨x, hx⟩ := getDeleted_mem h hr
    exact hinv.index.gone x r hx
  obtain ⟨-, -, rfl⟩ := getDeleted_cases h
  refine ⟨hinv.index.index, hinv.index.claims.trans ?_, hinv.index.live, ?_, htaken,
    hinv.index.intact⟩
  · exact (hq.symm.append_left _).append_right _
  · intro x r hx
    rw [AList.lookup_empty] at hx
    cases hx

end GetDeleted

/-! ## One deletion -/

section DeleteItem

variable {st st' : Storage} {deleting : List RecordIndex} {toAdd lost : List Region}
  {r : RecordIndex} {cacheSize : ℕ}

/-- What a deletion changes. -/
theorem deleteItem_cases (h : deleteItem cacheSize st r = some st') :
    ∃ index file log erased,
      st' = { (usedRegion r).foldl Storage.addFreeSpace st with
        m_pDataIndexDiskWriter := index
        files := { st.files with index := file }
        trace := { ((usedRegion r).foldl Storage.addFreeSpace st).trace with
          writes := log, erased := erased } } := by
  rw [deleteItem, Storage.foldl_addFreeSpace] at h
  dsimp only at h
  rw [Storage.foldl_addFreeSpace]
  obtain ⟨⟨index, file⟩, -, h⟩ := Option.bind_eq_some_iff.mp h
  dsimp only at h
  by_cases hoff : r.m_IB_recordOffset = -1
  · rw [if_pos hoff] at h
    cases h
    exact ⟨st.m_pDataIndexDiskWriter, st.files.index, _, _, rfl⟩
  · rw [if_neg hoff] at h
    cases h
    exact ⟨index, file, _, _, rfl⟩

theorem deleteItem_length (h : deleteItem cacheSize st r = some st') :
    st'.files.index.length = st.files.index.length := by
  rw [deleteItem, Storage.foldl_addFreeSpace] at h
  obtain ⟨⟨index, file⟩, herase, h⟩ := Option.bind_eq_some_iff.mp h
  have hlen := IndexBlock.EraseRecord_length herase
  dsimp only at h
  by_cases hoff : r.m_IB_recordOffset = -1
  · rw [if_pos hoff] at h
    cases h
    rfl
  · rw [if_neg hoff] at h
    cases h
    exact hlen

theorem DataInv.deleteItem (hinv : DataInv st (r :: deleting) toAdd lost)
    (h : deleteItem cacheSize st r = some st') : DataInv st' deleting toAdd lost := by
  obtain ⟨index, file, log, erased, rfl⟩ := deleteItem_cases h
  have hfree := hinv.deleting_cons.foldl_addFreeSpace
  rw [Storage.foldl_addFreeSpace] at hfree ⊢
  exact hfree.congr rfl rfl rfl rfl rfl

/-- A deletion returns. It gives the region of the entry back, and the slot if there
is one, with the call that clears it. -/
theorem StorageInv.deleteItem {sh : Shared} {lost : List ((ℕ × ℕ) × Region)}
    (hinv : StorageInv sh st (r :: deleting) toAdd lost) (cacheSize : ℕ) :
    ∃ index file iw st', DiskWriter.deleteItem cacheSize st r = some st'
      ∧ st' = { st with
        m_rFreeSpace := st'.m_rFreeSpace
        m_pDataIndexDiskWriter := index
        files := { st.files with index := file }
        trace := { st.trace with
          writes := st.trace.writes ++ iw
          freed := st.trace.freed ++ usedRegion r
          erased := st.trace.erased ++ usedSlot r } }
      ∧ StorageInv sh st' deleting toAdd lost ∧ IndexWrites st.files.index iw file
      ∧ file.length = st.files.index.length
      ∧ ∀ e, e ∈ IndexBlock.fileEntries 0 file → e ∈ IndexBlock.fileEntries 0 st.files.index := by
  have hplaced := hinv.index.taken r List.mem_cons_self
  have hclaims := hinv.index.claims
  have hcons : held owned st (r :: deleting)
      = KeyMap.collect (fun _ => owned) st.m_dataIndexes
        ++ (KeyMap.collect (fun _ => owned) st.m_pRIDelQueue ++ (owned r ++ deleting.flatMap owned)) := by
    rw [held, queued, List.flatMap_cons]
  cases hs : r.slot with
  | none =>
    -- an X that was never in the index file
    obtain ⟨hstart, hoff⟩ := hplaced hs
    have hused : usedRegion r = [] := usedRegion_place.fresh r hstart hoff
    have hslot : usedSlot r = [] := usedSlot_place.fresh r hstart hoff
    have howned : owned r = [] := owned_place.fresh r hstart hoff
    have hrun : DiskWriter.deleteItem cacheSize st r = some st := by
      rw [DiskWriter.deleteItem, hused, List.foldl_nil]
      dsimp only
      rw [IndexBlock.EraseRecord, if_pos hoff, Option.bind_eq_bind, Option.bind_some]
      dsimp only
      rw [if_pos hoff]
      rfl
    refine ⟨st.m_pDataIndexDiskWriter, st.files.index, [], st, hrun, ?_,
      ⟨hinv.data.deleteItem hrun, ?_⟩, Or.inl ⟨rfl, rfl⟩, rfl, fun _ he => he⟩
    · rw [hused, hslot, List.append_nil, List.append_nil, List.append_nil]
    · refine ⟨hinv.index.index, ?_, hinv.index.live, hinv.index.gone,
        fun q hq => hinv.index.taken q (List.mem_cons_of_mem _ hq), hinv.index.intact⟩
      rw [hcons, howned, List.nil_append] at hclaims
      exact hclaims
  | some slot =>
    obtain ⟨n, j⟩ := slot
    obtain ⟨hnum, hoff⟩ := RecordIndex.slot_eq_some hs
    have howned := owned_eq hs
    have hmem : ((n, j), r.region) ∈ held owned st (r :: deleting) := by
      refine mem_held.mpr (Or.inr (Or.inr ⟨r, List.mem_cons_self, ?_⟩))
      rw [howned]
      exact List.mem_singleton_self _
    obtain ⟨d, hd, hreg⟩ := hinv.index.exists_entry (List.mem_append_left lost hmem)
    obtain ⟨ib', file', rest, herase, hib', hwrote, hold, hnew⟩ :=
      hinv.index.index.erase cacheSize hd
    rw [← hnum, ← hoff] at herase
    rw [← hnum] at hwrote
    have hne : r.m_IB_recordOffset ≠ -1 := by
      rw [hoff]
      exact slotOffset_ne
    have hrun : DiskWriter.deleteItem cacheSize st r = some { st with
        m_rFreeSpace := (usedRegion r).foldl (fun m r => m.AddFreeSpace r.pos r.len) st.m_rFreeSpace
        m_pDataIndexDiskWriter := ib'
        files := { st.files with index := file' }
        trace := { st.trace with
          writes := st.trace.writes
            ++ (file'[r.m_IB_blockNumber]?).toList.map (.index r.m_IB_blockNumber)
          freed := st.trace.freed ++ usedRegion r
          erased := st.trace.erased ++ usedSlot r } } := by
      rw [DiskWriter.deleteItem, Storage.foldl_addFreeSpace]
      dsimp only
      rw [herase, Option.bind_eq_bind, Option.bind_some]
      dsimp only
      rw [if_neg hne]
      rfl
    have hlen : file'.length = st.files.index.length := by
      obtain ⟨b, hb, hput⟩ := hwrote
      obtain ⟨b0, hb0, -⟩ := IndexBlock.mem_fileEntries.mp hd
      have hlt := (List.getElem?_eq_some_iff.mp hb0).1
      rw [hput, IndexFile.putBlock, if_pos (by rw [hnum]; exact hlt), List.length_set]
    have hsub : ∀ e, e ∈ IndexBlock.fileEntries 0 file' →
        e ∈ IndexBlock.fileEntries 0 st.files.index := by
      intro e he
      exact hold.mem_iff.mpr (List.mem_cons_of_mem _ (hnew.mem_iff.mp he))
    refine ⟨ib', file', _, _, hrun, rfl, ⟨hinv.data.deleteItem hrun, ?_⟩, hwrote.writes, hlen, hsub⟩
    have hrest : (rest.map located).Perm (held owned st deleting ++ lost) := by
      have hold' := hold.map located
      have hloc : located ((n, j), d) = ((n, j), r.region) := Prod.ext rfl hreg
      rw [List.map_cons, hloc] at hold'
      rw [hcons, howned] at hclaims
      rw [held, queued]
      rw [List.perm_iff_count] at hold' hclaims ⊢
      intro c
      have h1 := hold' c
      have h2 := hclaims c
      simp only [List.count_append, List.count_cons, List.count_nil] at h1 h2 ⊢
      omega
    have hkeep : ∀ {e : (ℕ × ℕ) × DREC}, e ∈ IndexBlock.fileEntries 0 st.files.index →
        e.1 ≠ (n, j) → e ∈ IndexBlock.fileEntries 0 file' := by
      intro e he hslot
      rcases List.mem_cons.mp (hold.mem_iff.mp he) with rfl | he'
      · exact absurd rfl hslot
      · exact hnew.mem_iff.mpr he'
    refine ⟨hib', (hnew.map located).trans hrest, ?_, hinv.index.gone,
      fun q hq => hinv.index.taken q (List.mem_cons_of_mem _ hq), ?_⟩
    · intro x rx hx
      have hsx := hinv.index.live x rx hx
      refine ⟨hsx.placed, fun s hsome => hkeep (hsx.written s hsome) ?_⟩
      -- a slot is owned once, so the one of a live X is not the one that is erased
      rintro rfl
      refine hinv.index.slot_notMem hx hsome ?_
      refine List.mem_map.mpr ⟨((n, j), r.region), List.mem_append_left _ ?_, rfl⟩
      rw [queued, List.flatMap_cons, howned]
      exact List.mem_append_right _ (List.mem_append_left _ (List.mem_singleton_self _))
    · intro e he
      exact hinv.index.intact e (hsub e he)

end DeleteItem

end TransDB
