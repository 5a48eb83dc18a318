/-
All the X of the store.

`GetAllX` does not ask the main index: it parses the index file, in which an X is found from
the first time on that it has been written, and until its deletion has been carried out. So
what it lists is behind what the clients see. It is the same when nothing waits for the disk
thread (`getAllX_lists`).
-/
import TransDB.IndexBlockPlace
import TransDB.SystemHistory

set_option autoImplicit false

namespace TransDB

/-- `Storage::GetAllX`; `push` is the order in which the threads of `parallel_for` come to push
the keys. -/
def Storage.GetAllX (push : List UInt64 → List UInt64) (st : Storage) (sortFlags : UInt32) :
    Option (List UInt64) := do
  --get index file size and blockcount
  let blockCount := st.files.index.length % 2 ^ 32
  --iterate and fill container with X keys
  let blocks ← (List.range blockCount).mapM (IndexBlock.FillXKeys st.files.index)
  let rXKeyVec := push blocks.flatten
  --sort - by key ASC
  return if sortFlags ≠ 0 then rXKeyVec.mergeSort (fun x y => decide (x ≤ y)) else rXKeyVec

/-! ## Parsing the whole file -/

namespace IndexBlock

/-- A computation for each element of a list, none of which fails. -/
theorem mapM_some {α β : Type} {f : α → Option β} {g : α → β} {as : List α}
    (h : ∀ a ∈ as, f a = some (g a)) : as.mapM f = some (as.map g) := by
  induction as with
  | nil => rfl
  | cons a as ih =>
    obtain ⟨ha, has⟩ := List.forall_mem_cons.mp h
    rw [List.mapM_cons, ha, ih has]
    rfl

/-- `FillXKeys` comes to the records that `FillIndex` comes to. -/
theorem fillXKeys_eq (file : IndexFile) (i : ℕ) :
    FillXKeys file i = (FillIndex file i).map fun es => es.map fun e => e.2.m_key := by
  have hslots : ∀ (j : ℕ) (ds : List DREC), (entriesFrom i j ds).map (fun e => e.2.m_key)
      = (ds.filter fun pDREC => !pDREC.isEmpty).map DREC.m_key := by
    intro j ds
    induction ds generalizing j with
    | nil => rfl
    | cons d ds ih =>
      rw [entriesFrom, List.map_append, ih, List.filter_cons]
      cases d.isEmpty <;> rfl
  rw [FillXKeys, FillIndex, Option.map_map]
  exact congrArg (fun g => Option.map g _) (funext fun b => (hslots 0 b.slots).symm)

/-- The keys of the whole file. -/
theorem fillXKeys_file {file : IndexFile} (h : file.length ≤ 2 ^ 20) :
    ∃ blocks, (List.range (file.length % 2 ^ 32)).mapM (FillXKeys file) = some blocks
      ∧ blocks.flatten = (fileEntries 0 file).map fun e => e.2.m_key := by
  have hcount : file.length % 2 ^ 32 = file.length := Nat.mod_eq_of_lt (by omega)
  have hsome : ∀ i ∈ List.range file.length,
      FillXKeys file i = some (((FillIndex file i).getD []).map fun e => e.2.m_key) := by
    intro i hi
    have hlt := List.mem_range.mp hi
    have hblock : parsedBlock file i = some file[i] := by
      rw [parsedBlock, readBlock_eq (by omega), List.getElem?_eq_getElem hlt]
    rw [fillXKeys_eq, FillIndex, hblock]
    rfl
  refine ⟨_, by rw [hcount]; exact mapM_some hsome, ?_⟩
  rw [← fillIndex_eq h, ← List.flatMap_def, List.map_flatMap]

end IndexBlock

namespace Storage

/-- The keys of the records of the index file, in some order. -/
theorem getAllX_eq {st : Storage} {push : List UInt64 → List UInt64} {sortFlags : UInt32}
    (hpush : ∀ keys, (push keys).Perm keys) (hsmall : st.files.index.length ≤ 2 ^ 20) :
    ∃ keys, st.GetAllX push sortFlags = some keys
      ∧ keys.Perm ((IndexBlock.fileEntries 0 st.files.index).map fun e => e.2.m_key)
      ∧ (sortFlags ≠ 0 → keys.Pairwise (· ≤ ·)) := by
  obtain ⟨blocks, hblocks, hkeys⟩ := IndexBlock.fillXKeys_file hsmall
  have hperm : (push blocks.flatten).Perm _ := (hpush _).trans (.of_eq hkeys)
  refine ⟨_, by rw [GetAllX, hblocks]; rfl, ?_, fun hsort => ?_⟩
  · split
    · exact (List.mergeSort_perm _ _).trans hperm
    · exact hperm
  · rw [if_pos hsort]
    exact List.pairwise_mergeSort' (· ≤ ·) _

end Storage

namespace Sys

variable {sh : Shared} {s t : Sys} {es : List (UInt64 × RecordStore.Event)}
  {push : List UInt64 → List UInt64}

/-- An X that has a place in the index file is listed. -/
theorem Inv.listed {lost : List ((ℕ × ℕ) × Region)} (h : t.Inv sh lost) {x : UInt64}
    {r : RecordIndex} (hx : t.store.m_dataIndexes.lookup x = some r) (hslot : r.slot ≠ none) :
    x ∈ (IndexBlock.fileEntries 0 t.store.files.index).map fun e => e.2.m_key := by
  obtain ⟨slot, hslot⟩ := Option.ne_none_iff_exists'.mp hslot
  exact List.mem_map.mpr ⟨_, (h.index.live x r hx).written slot hslot, rfl⟩

/-- With nothing waiting the keys of the index file are those of the main index. -/
theorem Durable.listed (h : Durable sh t) (hdisk : t.disk = .idle) (hrest : t.Rested) :
    ((IndexBlock.fileEntries 0 t.store.files.index).map fun e => e.2.m_key).Nodup
      ∧ ∀ x, x ∈ (IndexBlock.fileEntries 0 t.store.files.index).map (fun e => e.2.m_key)
        ↔ x ∈ t.store.m_dataIndexes := by
  obtain ⟨hdel, hidle⟩ := h.rested hdisk hrest
  have hinv := h.reclaims.inv
  rw [Inv, hdisk] at hinv
  have hclient := hinv.client hdel fun x r hx => (hidle x r hx).2
  refine ⟨hclient.keys_nodup, fun x => ⟨fun hx => ?_, fun hx => ?_⟩⟩
  · obtain ⟨e, he, rfl⟩ := List.mem_map.mp hx
    obtain ⟨y, r, hy, hmem⟩ := KeyMap.mem_collect.mp (hclient.entries.mem_iff.mp he)
    rw [IndexBlock.Client.slotEntry_key hmem]
    exact AList.lookup_isSome.mp (Option.isSome_of_mem hy)
  · obtain ⟨r, hr⟩ := Option.isSome_iff_exists.mp (AList.lookup_isSome.mpr hx)
    exact Inv.listed h.reclaims.inv hr (hclient.slot x r hr)

/-- `GetAllX` lists every X that has been written to the index file, whatever the disk thread is
doing; with nothing waiting it lists the X that the clients see, and each of them once. -/
theorem getAllX_lists (hz : GzipOk sh) (hs : Started s)
    (h : (server sh).Shows (Lasting sh) (seen sh) s es t)
    (hsmall : t.store.files.index.length ≤ 2 ^ 20) (hpush : ∀ keys, (push keys).Perm keys)
    (sortFlags : UInt32) : ∃ f keys,
      (RecordStore.store sh.decompressGzip).Runs (fun _ => none) es f
      ∧ t.store.GetAllX push sortFlags = some keys ∧ (sortFlags ≠ 0 → keys.Pairwise (· ≤ ·))
      ∧ (∀ x r, t.store.m_dataIndexes.lookup x = some r → r.slot ≠ none → x ∈ keys)
      ∧ (t.disk = .idle → t.Rested → keys.Nodup ∧ ∀ x, x ∈ keys ↔ f x ≠ none) := by
  obtain ⟨f, hr, hend⟩ :=
    (simulates_server hz).runs h ⟨.init s hs, Durable.started hs, hs.models⟩
  obtain ⟨keys, hkeys, hperm, hsorted⟩ := @Storage.getAllX_eq t.store push sortFlags hpush hsmall
  refine ⟨f, keys, hr, hkeys, hsorted, fun x r hx hslot => ?_, fun hdisk hrest => ?_⟩
  · exact hperm.mem_iff.mpr (Inv.listed hend.durable.reclaims.inv hx hslot)
  · obtain ⟨hnodup, hmem⟩ := hend.durable.listed hdisk hrest
    refine ⟨hperm.nodup_iff.mpr hnodup, fun x => ?_⟩
    rw [hperm.mem_iff, hmem, hend.models.key]

/-- Two X written and flushed. -/
theorem getAllX_lists_two : ∃ s es t f keys, Started s
    ∧ (server Shared.plain).Shows (Lasting Shared.plain) (seen Shared.plain) s es t
    ∧ t.disk = .idle ∧ t.Rested ∧ 7 ∈ t.store.m_dataIndexes ∧ 8 ∈ t.store.m_dataIndexes
    ∧ (RecordStore.store Shared.plain.decompressGzip).Runs (fun _ => none) es f
    ∧ t.store.GetAllX List.reverse 1 = some keys ∧ keys.Pairwise (· ≤ ·)
    ∧ keys.Nodup ∧ ∀ x, x ∈ keys ↔ f x ≠ none := by
  have hrun : (fresh.bind fun s => (server Shared.plain).observe (seen Shared.plain)
      (lastingTest Shared.plain) s
      [put 0 7 1, put 0 8 1, .beginProcess [], .getItems [7, 8], .processItem ⟨4096, 64⟩,
        .processItem ⟨4096, 64⟩, .endProcess]).any
      (fun p => p.2.idle && decide (p.2.Rested ∧ 7 ∈ p.2.store.m_dataIndexes
        ∧ 8 ∈ p.2.store.m_dataIndexes ∧ p.2.store.files.index.length = 1)) = true := by
    decide +kernel
  have htest : ∀ s a t, lastingTest Shared.plain s a = true →
      (server Shared.plain).step s a = some t → Lasting Shared.plain s a t :=
    fun _ _ _ h _ => lasting_of_test h
  obtain ⟨s, es, t, hs, hshows, hp⟩ := exists_shown _ htest hrun
  obtain ⟨hidle, hp⟩ := Bool.and_eq_true_iff.mp hp
  obtain ⟨hrest, h7, h8, hsmall⟩ := of_decide_eq_true hp
  have hdisk := disk_of_idle hidle
  obtain ⟨f, keys, hruns, hkeys, hsorted, -, hall⟩ := getAllX_lists Shared.gzipOk_plain hs hshows
    ((Nat.le_of_eq hsmall).trans (by omega)) List.reverse_perm 1
  exact ⟨s, es, t, f, keys, hs, hshows, hdisk, hrest, h7, h8, hruns, hkeys,
    hsorted (by decide), hall hdisk hrest⟩

end Sys

end TransDB
