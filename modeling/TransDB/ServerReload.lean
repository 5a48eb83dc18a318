/-
What a shutdown leaves, the next start finds.

`~Storage` runs `Process` once more. Then no X waits to be written, and nothing is queued
for deletion: each X has its blocks in the data file and its record in the index file, and
the index file has no other record, so it is that of a client whose entries are the main
index. A start on the two files has the same X, and loads for each the blocks it had.

Two things break this while the server runs: a deletion that takes the place of another in
the queue leaves a record of no X behind (`Repeats`), and a write that forgets leaves
blocks in memory that are not those on disk (`Forgets`). And a start cannot load a block
that has as many records as RDFs fit into it.
-/
import TransDB.ServerReclaim
import TransDB.SystemFlush

set_option autoImplicit false

namespace TransDB

open DiskWriter Storage

namespace Sys

variable {sh : Shared}

/-- What a shutdown relies on. -/
structure Durable (sh : Shared) (s : Sys) : Prop where
  reclaims : Reclaims sh s
  queue : s.QInv
  kept : s.NothingLost
  clean : s.store.Clean

theorem Durable.started {s : Sys} (h : Started s) : Durable sh s where
  reclaims := Reclaims.started h
  queue := @AfterInit.qinv sh s (.empty s h)
  kept := @AfterInit.nothingLost sh s (.empty s h)
  clean := @AfterInit.clean sh s (.empty s h)

theorem Durable.step {s t : Sys} {a : Action} (h : Durable sh s)
    (hsmall : s.store.files.index.length < 2 ^ 20) (ha : a.plain = true) (hrep : ¬ s.Repeats a)
    (hremove : s.RemoveOk a) (hforgets : ¬ s.Forgets sh a) (hs : s.step sh a = some t) :
    Durable sh t := by
  have hm := step_move hs
  exact ⟨h.reclaims.step hsmall ha hrep hs, h.queue.move ha hm, h.kept.move h.queue ha hremove hm,
    clean_move h.clean h.queue ha hforgets hm⟩

end Sys

/-! ## After a flush -/

/-- The index file of a store with nothing queued for deletion, each X at its place: its
records are those of the X. -/
theorem StorageInv.client {sh : Shared} {st : Storage} (h : StorageInv sh st [] [] [])
    (hdel : st.m_pRIDelQueue = ∅)
    (hrel : ∀ x r, st.m_dataIndexes.lookup x = some r → r.relocateBlocks = false) :
    (⟨st.m_pDataIndexDiskWriter, st.files.index, st.m_dataIndexes⟩ : IndexBlock.Client).Inv where
  index := h.index.index
  entries := by
    have hfile : (IndexBlock.fileEntries 0 st.files.index).Nodup :=
      (IndexBlock.fileEntries_nodup 0 st.files.index).of_map
    have hlive : (IndexBlock.Client.entries st.m_dataIndexes).Nodup :=
      (KeyMap.collect_nodup (fun x r _ he => IndexBlock.Client.slotEntry_key he)
        IndexBlock.Client.slotEntry_nodup).of_map
    refine (List.perm_ext_iff_of_nodup hfile hlive).mpr fun e => ?_
    rw [IndexBlock.Client.entries, KeyMap.mem_collect]
    constructor
    · intro he
      have hheld := h.index.claims.mem_iff.mp (List.mem_map_of_mem (f := located) he)
      rw [List.append_nil, mem_held, hdel] at hheld
      rcases hheld with ⟨x, r, hx, hmem⟩ | ⟨x, r, hx, -⟩ | ⟨r, hr, -⟩
      · cases hslot : r.slot with
        | none =>
          rw [owned, hslot] at hmem
          cases hmem
        | some slot =>
          rw [owned_eq hslot, List.mem_singleton] at hmem
          have hslots : e.1 = slot := congrArg Prod.fst hmem
          have heq := IndexInv.slot_unique he ((h.index.live x r hx).written slot hslot) hslots
          refine ⟨x, r, hx, ?_⟩
          rw [heq, RecordIndex.slotEntry_eq hslot]
          exact List.mem_singleton_self _
      · cases hx
      · cases hr
    · rintro ⟨x, r, hx, hmem⟩
      cases hslot : r.slot with
      | none =>
        rw [RecordIndex.slotEntry, hslot] at hmem
        cases hmem
      | some slot =>
        rw [RecordIndex.slotEntry_eq hslot, List.mem_singleton] at hmem
        rw [hmem]
        exact (h.index.live x r hx).written slot hslot
  slot := by
    intro x r hx hnone
    have hstart := (h.data.entry x r hx).start_nonneg (hrel x r hx)
    have hplace := ((h.index.live x r hx).placed hnone).1
    omega

/-- The same X, and the same records of each, but for an X in memory that has a block
which cannot be loaded. -/
structure Restored (sh : Shared) (st st' : Storage) : Prop where
  keys : ∀ x, x ∈ st'.m_dataIndexes ↔ x ∈ st.m_dataIndexes
  records : ∀ x, st'.recordsOf sh x = st.recordsOf sh x ↔ st.Loadable x

theorem Restored.of_same {sh : Shared} {st st' st'' : Storage} (hsame : ∀ x, SameX sh st st' x)
    (h : Restored sh st' st'') : Restored sh st st'' where
  keys x := (h.keys x).trans (hsame x).key
  records x := by
    rw [← (hsame x).records, ← (hsame x).loadable]
    exact h.records x

/-- A start on the files of a store in which nothing waits. -/
theorem restored_startOn {sh : Shared} {st : Storage} (h : StorageInv sh st [] [] [])
    (hdel : st.m_pRIDelQueue = ∅)
    (hidle : ∀ x r, st.m_dataIndexes.lookup x = some r →
      r.inDiskWriteQueue = false ∧ r.relocateBlocks = false) (hclean : st.Clean)
    {order : List ((ℕ × ℕ) × DREC)}
    (horder : order.Perm (IndexBlock.fileEntries 0 st.files.index)) {files : Files}
    (hread : ∀ pos n bs, st.files.data.fread pos n = some bs → files.data.fread pos n = some bs)
    (log : List FileWrite) : Restored sh st (startOn order files log) := by
  have hrestart := (h.client hdel fun x r hx => (hidle x r hx).2).lookup_restart horder
  have hnone : ∀ x, st.m_dataIndexes.lookup x = none →
      (startOn order files log).m_dataIndexes.lookup x = none := by
    intro x hx
    refine Option.eq_none_iff_forall_ne_some.mpr fun r hr => ?_
    obtain ⟨r0, hr0, -⟩ := (hrestart x r).mp hr
    have hr0' : st.m_dataIndexes.lookup x = some r0 := hr0
    rw [hx] at hr0'
    cases hr0'
  have hsome : ∀ x r, st.m_dataIndexes.lookup x = some r →
      (startOn order files log).m_dataIndexes.lookup x = some r.reloaded :=
    fun x r hx => (hrestart x r.reloaded).mpr ⟨r, hx, rfl⟩
  constructor
  · intro x
    rw [← AList.lookup_isSome, ← AList.lookup_isSome]
    cases hx : st.m_dataIndexes.lookup x with
    | none => rw [hnone x hx]
    | some r =>
      rw [hsome x r hx]
      exact Iff.rfl
  · intro x
    rw [recordsOf, recordsOf, managerOf_eq_managerIn, managerOf_eq_managerIn]
    cases hx : st.m_dataIndexes.lookup x with
    | none =>
      rw [hnone x hx]
      refine iff_of_true rfl fun r m hr => ?_
      rw [hx] at hr
      cases hr
    | some r =>
      obtain ⟨hflag, hrel⟩ := hidle x r hx
      obtain ⟨bs, hst, -⟩ := (h.data.entry x r hx).stored hrel
      have hload : r.reloaded.managerIn files.data = Blman.create (some bs) :=
        RecordIndex.managerIn_load rfl rfl (hread _ _ _ hst.read)
      rw [hsome x r hx, Option.bind_some, Option.bind_some]
      show (r.reloaded.managerIn files.data).map Blman.contents = _ ↔ _
      rw [hload]
      cases hmgr : r.m_pBlockManager with
      | none =>
        rw [RecordIndex.managerIn_load hmgr hrel hst.read]
        exact iff_of_true rfl (loadable_of_none hx hmgr)
      | some m =>
        -- the blocks in memory are those on disk
        have hbs : bs = m.blocks := by
          have hdisk := hclean x r m hx hmgr hflag
          rw [hst.read] at hdisk
          exact Option.some.inj hdisk
        rw [RecordIndex.managerIn_resident _ hmgr, hbs, loadable_resident hx hmgr]
        exact ((h.data.entry x r hx).manager m hmgr).create_contents_iff

namespace Server

variable {sh : Shared}

/-- No deletion takes the place of another in the queue, and no write forgets. -/
def Persists (sh : Shared) (s : Server) (op : Op) (t : Server) : Prop :=
  OnceEach s op t ∧ ∀ a ∈ op.action, ¬ s.atRest.Forgets sh a

theorem durable_run {s t : Server} {op : Op} (h : Sys.Durable sh s.atRest)
    (hok : Persists sh s op t) (hrun : s.run sh op = some t) : Sys.Durable sh t.atRest := by
  obtain ⟨⟨hplain, hsmall, honce⟩, hforgets⟩ := hok
  have hsteps := (Sys.steps_small (fun _ _ _ ha => ha.1) (run_steps hplain hrun)
    ⟨_, StorageInv.data h.reclaims.inv⟩ hsmall).1
  refine hsteps.invariant (Sys.Durable sh) ?_ h
  rintro u a v hu ⟨hok, hlt⟩ hs
  refine hu.step hlt hok.1 (opStep_once hok honce) hok.2.1 ?_ hs
  rintro ⟨w, hw, hold⟩
  rcases hok.2.2 with ⟨hquiet, -⟩ | ⟨rfl, hop⟩
  · rw [hquiet] at hw
    cases hw
  · exact hforgets a hop ⟨w, hw, hold⟩

theorem reach_durable {s : Server} (h : (machine sh).Reach (Persists sh) s) :
    Sys.Durable sh s.atRest := by
  refine h.invariant (fun s => Sys.Durable sh s.atRest) (fun s hs => Sys.Durable.started hs) ?_
  intro s op t hs hok hrun
  exact durable_run hs hok hrun

/-- **What was there is there again.** After a run in which no deletion takes the place of
another and no write forgets, with room in the index file, the last flush comes to its
end, and a start on the files it leaves has the same X, each with its records. -/
theorem persisted {s : Server} {args : ProcessArgs} (h : (machine sh).Reach (Persists sh) s)
    (hargs : Sys.Orders s.store args)
    (hroom : s.store.files.index.length + s.store.m_pQueue.keys.length < 2 ^ 20) :
    ∃ t, s.run sh (.process args) = some t
      ∧ ∀ ReallocSize forceStartup order,
        order.Perm (IndexBlock.fileEntries 0 t.store.files.index) →
        (t.store.files.data.size = 0 → 0 ≤ ReallocSize) →
        ∃ st, Storage.Init ReallocSize forceStartup order t.store.files = some st
          ∧ Restored sh s.store st := by
  have hs := reach_durable h
  have hinv : StorageInv sh s.store [] [] [] := hs.reclaims.inv
  obtain ⟨store, hprocess, hsmall⟩ := Sys.process_total hinv hs.queue.2 hargs hroom
  have hrun : s.run sh (.process args) = some ⟨store, s.lru⟩ := by
    rw [run, hprocess]
    rfl
  have hok : Persists sh s (.process args) ⟨store, s.lru⟩ :=
    ⟨⟨rfl, hsmall, by rintro x ⟨⟩⟩, by rintro a ⟨⟩⟩
  have ht := durable_run hs hok hrun
  have hinv' : StorageInv sh store [] [] [] := ht.reclaims.inv
  obtain ⟨hdel, hqueue⟩ := Sys.process_taken (s := s.atRest) rfl ⟨_, hinv.data⟩ hprocess
  have hidle : ∀ x r, store.m_dataIndexes.lookup x = some r →
      r.inDiskWriteQueue = false ∧ r.relocateBlocks = false := by
    intro x r hx
    have hflag : r.inDiskWriteQueue = false := by
      by_contra hne
      rcases ht.kept x r hx (by rwa [Bool.not_eq_false] at hne) with hmem | hmem
      · have hmem' : x ∈ store.m_pQueue := hmem
        rw [hqueue] at hmem'
        exact absurd hmem' (AList.notMem_empty x)
      · cases hmem
    exact ⟨hflag, ht.queue.2.not_relocating hx hflag⟩
  refine ⟨⟨store, s.lru⟩, hrun, fun ReallocSize forceStartup order horder hsize => ?_⟩
  obtain ⟨files, log, hinit, -, -, hread⟩ := Init_eq hinv'.filesOk horder forceStartup hsize
  refine ⟨startOn order files log, hinit, ?_⟩
  have hrestored := restored_startOn hinv' hdel hidle ht.clean horder hread log
  exact hrestored.of_same fun x =>
    Sys.process_sameX (s := s.atRest) rfl ⟨_, hinv.data⟩ hprocess x

/-- The test of `Persists` on a run. -/
def persistsTest (sh : Shared) (s : Server) (op : Op) : Bool :=
  onceTest sh s op && decide (∀ a ∈ op.action, ¬ s.atRest.Forgets sh a)

theorem persists_of_test {s t : Server} {op : Op} (h : persistsTest sh s op = true)
    (hs : s.run sh op = some t) : Persists sh s op t := by
  rw [persistsTest, Bool.and_eq_true] at h
  exact ⟨onceEach_of_test h.1 hs,
    of_decide_eq_true (p := ∀ a ∈ op.action, ¬ s.atRest.Forgets sh a) h.2⟩

/-- Two X written and flushed, and one of them deleted and created again before the server
is shut down. -/
theorem persisted_created : ∃ s t st, (machine Shared.plain).Reach (Persists Shared.plain) s
    ∧ 7 ∈ s.store.m_dataIndexes ∧ 8 ∈ s.store.m_dataIndexes
    ∧ s.run Shared.plain (flush [7] [7]) = some t
    ∧ Storage.Init 8192 false (IndexBlock.fileEntries 0 t.store.files.index) t.store.files = some st
    ∧ Restored Shared.plain s.store st := by
  have hrun : (fresh.bind fun s => (machine Shared.plain).run (persistsTest Shared.plain) s
      [put 7, put 8, flush [] [7, 8], .deleteData 0 7, put 7]).any (fun s =>
        decide (Sys.Orders s.store ⟨[7], fun _ => 64, [7], fun _ => ⟨4096, 64⟩⟩
          ∧ s.store.files.index.length + s.store.m_pQueue.keys.length < 2 ^ 20
          ∧ 7 ∈ s.store.m_dataIndexes ∧ 8 ∈ s.store.m_dataIndexes)) = true := by
    decide +kernel
  obtain ⟨s, hreach, hs⟩ := exists_run (fun _ _ _ h => persists_of_test h) hrun
  obtain ⟨hargs, hroom, h7, h8⟩ := of_decide_eq_true hs
  obtain ⟨t, ht, hreload⟩ := persisted hreach hargs hroom
  obtain ⟨st, hinit, hrestored⟩ :=
    hreload 8192 false (IndexBlock.fileEntries 0 t.store.files.index) (List.Perm.refl _)
      (fun _ => by decide)
  exact ⟨s, t, st, hreach, h7, h8, ht, hinit, hrestored⟩

/-- An X flushed, deleted, created and deleted again is there after the next start. -/
theorem not_persisted : ∃ s t st,
    (machine Shared.plain).Reach
      (fun _ op t => op.plain = true ∧ t.store.files.index.length < 2 ^ 20) s
    ∧ s.run Shared.plain (flush [7] []) = some t
    ∧ Storage.Init 8192 false (IndexBlock.fileEntries 0 t.store.files.index) t.store.files = some st
    ∧ 7 ∉ s.store.m_dataIndexes ∧ 7 ∈ st.m_dataIndexes ∧ ¬ Restored Shared.plain s.store st := by
  have hrun : (fresh.bind fun s => (machine Shared.plain).run (plainTest Shared.plain) s
      [put 7, flush [] [7], .deleteData 0 7, put 7, .deleteData 0 7]).any (fun s =>
        (s.run Shared.plain (flush [7] [])).any fun t =>
          (Storage.Init 8192 false (IndexBlock.fileEntries 0 t.store.files.index)
            t.store.files).any fun st =>
              decide (7 ∉ s.store.m_dataIndexes ∧ 7 ∈ st.m_dataIndexes)) = true := by
    decide +kernel
  obtain ⟨s, hreach, hs⟩ := exists_run (fun _ _ _ h => plain_of_test h) hrun
  obtain ⟨t, hp, ht⟩ := Option.any_eq_true .. |>.mp hs
  obtain ⟨st, hinit, hst⟩ := Option.any_eq_true .. |>.mp ht
  obtain ⟨hgone, hback⟩ := of_decide_eq_true hst
  exact ⟨s, t, st, hreach, hp, hinit, hgone, hback, fun h => hgone ((h.keys 7).mp hback)⟩

end Server

end TransDB
