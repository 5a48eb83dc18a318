/-
The free space, kept and rebuilt.

`m_rFreeSpace` is kept by every write, deletion and growth of the data file;
`DefragmentFreeSpace` throws it away and takes the gaps between the records of the
index file instead. Between two runs of `Process` both are what the entries leave
of the data file, so they are the same set of bytes, cut up differently.
-/
import TransDB.SystemInv

set_option autoImplicit false

namespace TransDB

open DiskWriter Storage

/-- The free regions of a store. -/
def Storage.freeRegions (st : Storage) : List Region := FreeSpaceBlockMap.regions st.m_rFreeSpace

namespace Sys

variable {sh : Shared}

/-- What `DefragmentFreeSpace` does to the free regions. -/
structure Rebuilt (st : Storage) (order : List ((ℕ × ℕ) × DREC)) : Prop where
  /-- The same bytes are free. -/
  union : ∀ p, (∃ r ∈ (DefragmentFreeSpace order st).freeRegions, r.Mem p)
    ↔ ∃ r ∈ st.freeRegions, r.Mem p
  /-- The regions are as large as they can be. -/
  clear : (DefragmentFreeSpace order st).freeRegions.Pairwise Region.Clear
  /-- An X that waits for its deletion keeps its region. -/
  pending : ∀ x q, st.m_pRIDelQueue.lookup x = some q → ∀ u ∈ usedRegion q, ∀ p, u.Mem p →
    (¬ ∃ r ∈ st.freeRegions, r.Mem p)
      ∧ ¬ ∃ r ∈ (DefragmentFreeSpace order st).freeRegions, r.Mem p

/-- In every state between two runs of `Process`, the free space read off the index
file is the free space that was kept. -/
theorem defragment_agrees {s : Sys} (h : (server sh).Reach Small s) (hd : s.disk = .idle)
    {order : List ((ℕ × ℕ) × DREC)}
    (horder : order.Perm (IndexBlock.fileEntries 0 s.store.files.index)) :
    Rebuilt s.store order := by
  obtain ⟨lost, hinv⟩ := reach_inv h
  rw [Inv, hd] at hinv
  have hs : StorageInv sh s.store [] [] lost := hinv
  have hunion := hs.tiles.mem_iff (hs.defragmentFreeSpace horder).tiles
  refine ⟨fun p => (hunion p).symm, hs.defragmentFreeSpace_clear horder, ?_⟩
  intro x q hq u hu p hp
  have hheld : u ∈ held usedRegion s.store [] := mem_held.mpr (Or.inr (Or.inl ⟨x, q, hq, hu⟩))
  have hold : ¬ ∃ r ∈ s.store.freeRegions, r.Mem p := by
    rintro ⟨r, hr, hrp⟩
    have hap := (List.pairwise_append.mp hs.data.tiles.apart).2.2 r hr u
      (List.mem_append_right _ (List.mem_append_left _ hheld))
    exact hap.not_mem hrp hp
  exact ⟨hold, fun hnew => hold ((hunion p).mpr hnew)⟩

/-- A deletion that waits: two X written to disk, and one of them deleted. -/
theorem defragment_agrees_pending : ∃ (s : Sys) (order : List ((ℕ × ℕ) × DREC)),
    (server Shared.plain).Reach Small s ∧ s.disk = .idle
    ∧ (∃ q, s.store.m_pRIDelQueue.lookup 7 = some q ∧ usedRegion q ≠ [])
    ∧ Rebuilt s.store order := by
  have hrun : (fresh.bind fun s => (server Shared.plain).run smallTest s
      [put 0 7 1, .beginProcess [], .getItems [7], .processItem ⟨4096, 64⟩, .endProcess,
        .deleteData 1 7, .remove 7]).any
      (fun s => s.idle
        && (s.store.m_pRIDelQueue.lookup 7).any fun q => decide (usedRegion q ≠ [])) = true := by
    decide +kernel
  obtain ⟨s, t, hs, hsteps, ht⟩ := exists_run _ small_of_test hrun
  have hreach := (Machine.Reach.init s hs).steps hsteps
  rw [Bool.and_eq_true, Option.any_eq_true] at ht
  obtain ⟨hidle, q, hq, hused⟩ := ht
  have hdisk := disk_of_idle hidle
  exact ⟨t, _, hreach, hdisk, ⟨q, hq, of_decide_eq_true hused⟩,
    defragment_agrees hreach hdisk (List.Perm.refl _)⟩

end Sys

end TransDB
