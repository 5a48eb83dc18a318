/-
The history of the store, over restarts.

A start finds what the last one has left, if nothing waits when the server goes down. So
the clients see one run of the store from the first start on, however often the server is
started again and its free space is put together, and whatever the threads do in between:
a restart is not seen. It follows that every answer is what the history says.

What must not happen is what `Durable` needs: no deletion takes the place of another in
the queue, no `Remove` takes a new X out of it, and no write forgets.
-/
import TransDB.ServerReload
import TransDB.SystemReplies

set_option autoImplicit false

namespace TransDB

open DiskWriter Storage RecordStore

/-! ## A start on what was left -/

section Start

variable {sh : Shared} {st : Storage} {order : List ((ℕ × ℕ) × DREC)} {files : Files}

/-- No record of the index file is left out, if no key is in it twice. -/
theorem startOn_claims {lost : List ((ℕ × ℕ) × Region)} {log : List FileWrite}
    (h : StorageInv sh (startOn order files log) [] [] lost)
    (horder : order.Perm (IndexBlock.fileEntries 0 files.index))
    (hkeys : ((IndexBlock.fileEntries 0 files.index).map fun e => e.2.m_key).Nodup) :
    lost = [] := by
  have hclaims : ((IndexBlock.fileEntries 0 files.index).map located).Perm
      (held owned (startOn order files log) [] ++ lost) := h.index.claims
  have hslots : ((IndexBlock.fileEntries 0 files.index).map located).Nodup := by
    refine List.Nodup.of_map Prod.fst ?_
    rw [List.map_map]
    exact IndexBlock.fileEntries_nodup 0 files.index
  refine List.eq_nil_iff_forall_not_mem.mpr fun c hc => ?_
  obtain ⟨e, he, rfl⟩ := List.mem_map.mp (hclaims.mem_iff.mpr (List.mem_append_right _ hc))
  have hlookup : (startOn order files log).m_dataIndexes.lookup e.2.m_key
      = some (IndexBlock.loadedIndex e.1 e.2) := by
    refine (IndexBlock.lookup_fillMap ∅ ?_).mpr
      (Or.inr ⟨AList.notMem_empty _, e, horder.mem_iff.mpr he, rfl, rfl⟩)
    exact (horder.map _).nodup_iff.mpr hkeys
  have hheld : located e ∈ held owned (startOn order files log) [] := by
    refine mem_held.mpr (Or.inl ⟨_, _, hlookup, ?_⟩)
    rw [owned_loadedIndex (slot_lt he)]
    exact List.mem_singleton_self _
  exact (List.nodup_append.mp (hclaims.nodup_iff.mp hslots)).2.2 _ hheld _ hc rfl

/-- Of an X that is loaded again the records are those it had. -/
theorem recordsOf_startOn (h : StorageInv sh st [] [] []) (hdel : st.m_pRIDelQueue = ∅)
    (hidle : ∀ x r, st.m_dataIndexes.lookup x = some r →
      r.inDiskWriteQueue = false ∧ r.relocateBlocks = false) (hclean : st.Clean)
    (horder : order.Perm (IndexBlock.fileEntries 0 st.files.index))
    (hread : ∀ pos n bs, st.files.data.fread pos n = some bs → files.data.fread pos n = some bs)
    (log : List FileWrite) {x : UInt64} {g : RecordMap}
    (hg : (startOn order files log).recordsOf sh x = some g) : st.recordsOf sh x = some g := by
  obtain ⟨m', hm', rfl⟩ := Option.map_eq_some_iff.mp hg
  rw [managerOf_eq_managerIn] at hm'
  obtain ⟨r', hx', hm'⟩ := Option.bind_eq_some_iff.mp hm'
  obtain ⟨r, hx, rfl⟩ :=
    ((h.client hdel fun x r hx => (hidle x r hx).2).lookup_restart horder x r').mp hx'
  have hx : st.m_dataIndexes.lookup x = some r := hx
  obtain ⟨hflag, hrel⟩ := hidle x r hx
  obtain ⟨bs, hst, -⟩ := (h.data.entry x r hx).stored hrel
  have hload : r.reloaded.managerIn files.data = Blman.create (some bs) :=
    RecordIndex.managerIn_load rfl rfl (hread _ _ _ hst.read)
  have hm' : Blman.create (some bs) = some m' := hload.symm.trans hm'
  rw [recordsOf, managerOf_eq_managerIn, hx, Option.bind_some]
  cases hmgr : r.m_pBlockManager with
  | none => rw [RecordIndex.managerIn_load hmgr hrel hst.read, hm', Option.map_some]
  | some m =>
    have hdisk := hclean x r m hx hmgr hflag
    rw [hst.read] at hdisk
    rw [RecordIndex.managerIn_resident _ hmgr, Option.map_some, Blman.contents, Blman.contents,
      (Blman.create_some hst.sound hst.nonempty hst.count_lt hm').2, Option.some.inj hdisk]

end Start

namespace Sys

variable {sh : Shared} {s t : Sys} {a : Action}

/-- Nothing waits: no X to be written, and none to be deleted. -/
structure Rested (s : Sys) : Prop where
  queue : s.store.m_pQueue.keys = []
  deletions : s.store.m_pRIDelQueue.keys = []

instance (s : Sys) : Decidable s.Rested :=
  decidable_of_iff (s.store.m_pQueue.keys = [] ∧ s.store.m_pRIDelQueue.keys = [])
    ⟨fun h => ⟨h.1, h.2⟩, fun h => ⟨h.queue, h.deletions⟩⟩

/-- What nothing waiting means for the entries. -/
theorem Durable.rested (h : Durable sh s) (hdisk : s.disk = .idle) (hrest : s.Rested) :
    s.store.m_pRIDelQueue = ∅ ∧ ∀ x r, s.store.m_dataIndexes.lookup x = some r →
      r.inDiskWriteQueue = false ∧ r.relocateBlocks = false := by
  refine ⟨AList.ext (List.map_eq_nil_iff.mp hrest.deletions), fun x r hx => ?_⟩
  have hflag : r.inDiskWriteQueue = false := by
    by_contra hne
    rcases h.kept x r hx (by rwa [Bool.not_eq_false] at hne) with hmem | hmem
    · have hkeys := AList.mem_keys.mp hmem
      rw [hrest.queue] at hkeys
      cases hkeys
    · rw [hdisk] at hmem
      cases hmem
  exact ⟨hflag, h.queue.2.not_relocating hx hflag⟩

theorem Durable.restart {f : UInt64 → Option RecordMap} {ReallocSize : Int} {forceStartup : Bool}
    {order : List ((ℕ × ℕ) × DREC)} (h : Durable sh s) (hreach : (server sh).Reach Small s)
    (hrest : s.Rested) (hmodels : Models sh s.store f)
    (hs : s.step sh (.restart ReallocSize forceStartup order) = some t) :
    Durable sh t ∧ Models sh t.store f := by
  have hafter := AfterInit.files s t ReallocSize forceStartup order hreach hs
  obtain ⟨hdisk, horder, store, hinit, rfl⟩ := step_restart hs
  have hinv := h.reclaims.inv
  rw [Inv, hdisk] at hinv
  obtain ⟨hdel, hidle⟩ := h.rested hdisk hrest
  obtain ⟨files, log, rfl, hf, hindex, hread⟩ := Init_cases (StorageInv.filesOk hinv) horder hinit
  have horder' := horder
  rw [← hindex] at horder'
  obtain ⟨lost, hstart⟩ := startOn_inv hf horder' log
  have hkeys := (hinv.client hdel fun x r hx => (hidle x r hx).2).keys_nodup
  obtain rfl := startOn_claims hstart horder' (by rw [hindex]; exact hkeys)
  refine ⟨⟨⟨hstart, List.Perm.refl _, List.Perm.refl _⟩, hafter.qinv, hafter.nothingLost,
    hafter.clean⟩, ⟨fun x => ?_, fun x g hg => ?_⟩⟩
  · rw [← hmodels.key x]
    exact (restored_startOn hinv hdel hidle h.clean horder hread log).keys x
  · exact hmodels.records x g (recordsOf_startOn hinv hdel hidle h.clean horder hread log hg)

/-- The free space is made anew, and nothing else. -/
theorem Durable.defragmentFreeSpace {f : UInt64 → Option RecordMap}
    {order : List ((ℕ × ℕ) × DREC)} (h : Durable sh s) (hmodels : Models sh s.store f)
    (hs : s.step sh (.defragmentFreeSpace order) = some t) :
    Durable sh t ∧ Models sh t.store f := by
  obtain ⟨hdisk, horder, rfl⟩ := step_defragmentFreeSpace hs
  have hinv := h.reclaims.inv
  rw [Inv, hdisk] at hinv
  have hinv' : Inv sh ⟨DefragmentFreeSpace order s.store, s.lru, s.disk, s.removing⟩ [] := by
    rw [Inv, hdisk]
    exact hinv.defragmentFreeSpace horder
  exact ⟨⟨⟨hinv', h.reclaims.retired, h.reclaims.deleted⟩,
    ⟨⟨_, StorageInv.data hinv'⟩, h.queue.2.congr rfl rfl⟩, h.kept, h.clean⟩,
    hmodels.sameX fun _ => .of_eq rfl rfl⟩

end Sys

/-! ## From the first start on -/

/-- The action is a start. -/
def Action.restarts : Action → Bool
  | .restart _ _ _ => true
  | _ => false

namespace Sys

variable {sh : Shared} {s t : Sys} {a : Action}

instance (s : Sys) : DecidablePred s.Repeats :=
  fun _ => inferInstanceAs (Decidable (∃ _ ∈ _, _))

/-- The steps of the runs in which nothing is lost, over restarts too. -/
structure Lasting (sh : Shared) (s : Sys) (a : Action) (t : Sys) : Prop where
  small : Small s a t
  once : ¬ s.Repeats a
  kept : s.RemoveOk a
  remembers : ¬ s.Forgets sh a
  repacked : s.Repacked sh a
  rested : a.restarts = true → s.Rested

/-- A state of the server since its first start, and what its clients see. -/
structure Lasts (sh : Shared) (s : Sys) (f : UInt64 → Option RecordMap) : Prop where
  reach : (server sh).Reach Small s
  durable : Durable sh s
  models : Models sh s.store f

theorem Lasts.hidden {f : UInt64 → Option RecordMap} (h : Lasts sh s f) (hok : Lasting sh s a t)
    (hs : s.step sh a = some t) (hseen : s.seen sh a = none) : Lasts sh t f := by
  have hreach : (server sh).Reach Small t := .step s t a h.reach hok.small hs
  by_cases ha : a.plain = true
  · obtain ⟨⟨lost, hd⟩, -⟩ := h.durable.queue
    exact ⟨hreach, h.durable.step hok.small ha hok.once hok.kept hok.remembers hs,
      models_hidden hd h.durable.clean h.models hs hseen ha⟩
  · cases a with
    | defragmentFreeSpace order =>
      obtain ⟨hdurable, hmodels⟩ := h.durable.defragmentFreeSpace h.models hs
      exact ⟨hreach, hdurable, hmodels⟩
    | restart ReallocSize forceStartup order =>
      obtain ⟨hdurable, hmodels⟩ :=
        h.durable.restart h.reach (hok.rested rfl) h.models hs
      exact ⟨hreach, hdurable, hmodels⟩
    | _ => exact absurd rfl ha

theorem plain_of_seen {e : UInt64 × Event} (h : s.seen sh a = some e) : a.plain = true := by
  cases a with
  | defragmentFreeSpace order => cases h
  | restart ReallocSize forceStartup order => cases h
  | _ => rfl

theorem simulates_server (hz : GzipOk sh) :
    (server sh).Simulates (Lasting sh) (seen sh) (RecordStore.store sh.decompressGzip)
      (Lasts sh) where
  hidden _ _ _ _ h hok hs hseen := h.hidden hok hs hseen
  shown s a t f e h hok hs hseen := by
    obtain ⟨⟨lost, hd⟩, -⟩ := h.durable.queue
    obtain ⟨f', hn, hmodels⟩ := models_seen hz hd h.models hok.repacked hs hseen
    exact ⟨f', hn, .step s t a h.reach hok.small hs,
      h.durable.step hok.small (plain_of_seen hseen) hok.once hok.kept hok.remembers hs, hmodels⟩

/-- From the first start on, whatever the threads do and however often the server is started
again, the clients see one run of the store. -/
theorem store_refines_restarts (hz : GzipOk sh) {es : List (UInt64 × Event)} (hs : Started s)
    (h : (server sh).Shows (Lasting sh) (seen sh) s es t) :
    ∃ f, (RecordStore.store sh.decompressGzip).Runs (fun _ => none) es f
      ∧ Models sh t.store f := by
  obtain ⟨f, hr, hend⟩ :=
    (simulates_server hz).runs h ⟨.init s hs, Durable.started hs, hs.models⟩
  exact ⟨f, hr, hend.models⟩

/-- Every answer is what the history of its X says: nothing but the record of the last write,
and this one at least if no write since then can have removed it. -/
theorem answers_history (hz : GzipOk sh) {es pre post : List (UInt64 × Event)} {x : UInt64}
    {e : Event} (hs : Started s) (h : (server sh).Shows (Lasting sh) (seen sh) s es t)
    (hes : es = pre ++ (x, e) :: post) :
    Answers sh.decompressGzip (Spec.eventsOf x pre) e := by
  obtain ⟨f, hr, -⟩ :=
    (simulates_server hz).runs h ⟨.init s hs, Durable.started hs, hs.models⟩
  exact store_answers hr hes

/-- The test of `Lasting`. -/
def lastingTest (sh : Shared) (s : Sys) (a : Action) : Bool :=
  smallTest s a && !decide (s.Repeats a) && decide (s.RemoveOk a) && !decide (s.Forgets sh a)
    && repackedTest sh s a && (!a.restarts || decide s.Rested)

theorem lasting_of_test (h : lastingTest sh s a = true) : Lasting sh s a t := by
  simp only [lastingTest, Bool.and_eq_true, Bool.not_eq_true', decide_eq_false_iff_not,
    Bool.or_eq_true, decide_eq_true_eq] at h
  obtain ⟨⟨⟨⟨⟨hsmall, honce⟩, hkept⟩, hremembers⟩, hrepacked⟩, hrested⟩ := h
  refine ⟨small_of_test s a t hsmall, honce, hkept, hremembers, repacked_of_test hrepacked,
    fun hre => hrested.resolve_left ?_⟩
  rw [hre]
  exact Bool.noConfusion

theorem step_restart_files {ReallocSize : Int} {forceStartup : Bool} {store : Storage}
    (hd : s.disk = .idle)
    (hi : Storage.Init ReallocSize forceStartup (IndexBlock.fileEntries 0 s.store.files.index)
      s.store.files = some store) :
    s.step sh (.restart ReallocSize forceStartup (IndexBlock.fileEntries 0 s.store.files.index))
      = some ⟨store, fun _ => LRUCache.empty, .idle, []⟩ := by
  rw [step, hd]
  dsimp only
  rw [if_pos (List.Perm.refl _), hi]
  rfl

/-- A record written and flushed, a restart, and the record read. -/
theorem exists_restarted : ∃ s es t, Started s
    ∧ (server Shared.plain).Shows (Lasting Shared.plain) (seen Shared.plain) s es t
    ∧ ∃ e ∈ es, e.1 = 7 ∧ e.2.found = some [1, 2, 3] := by
  have hrun : (fresh.bind fun s => (server Shared.plain).observe (seen Shared.plain)
      (lastingTest Shared.plain) s
      [put 0 7 1, .beginProcess [], .getItems [7], .processItem ⟨4096, 64⟩, .endProcess]).any
      (fun p => p.2.idle
        && lastingTest Shared.plain p.2
          (.restart 8192 false (IndexBlock.fileEntries 0 p.2.store.files.index))
        && (Storage.Init 8192 false (IndexBlock.fileEntries 0 p.2.store.files.index)
          p.2.store.files).any fun store =>
            ((server Shared.plain).observe (seen Shared.plain) (lastingTest Shared.plain)
              ⟨store, fun _ => LRUCache.empty, .idle, []⟩ [.readRecord 1 7 1 []]).any fun p =>
                p.1.any fun e => decide (e.1 = 7 ∧ e.2.found = some [1, 2, 3])) = true := by
    decide +kernel
  have htest : ∀ s a t, lastingTest Shared.plain s a = true →
      (server Shared.plain).step s a = some t → Lasting Shared.plain s a t :=
    fun _ _ _ h _ => lasting_of_test h
  obtain ⟨s, es, t, hs, hshows, hp⟩ := exists_shown _ htest hrun
  rw [Bool.and_eq_true, Bool.and_eq_true] at hp
  obtain ⟨⟨hidle, hok⟩, hp⟩ := hp
  obtain ⟨store, hinit, hp⟩ := (Option.any_eq_true _ _).mp hp
  obtain ⟨⟨fs, u⟩, hread, hp⟩ := (Option.any_eq_true _ _).mp hp
  obtain ⟨e, he, hfound⟩ := List.any_eq_true.mp hp
  have hstep := @step_restart_files Shared.plain t 8192 false store (disk_of_idle hidle) hinit
  have hall := (hshows.trans (.single (lasting_of_test hok) hstep)).trans (.of_observe htest hread)
  exact ⟨s, _, u, hs, hall, e, List.mem_append_right _ he, of_decide_eq_true hfound⟩

/-- What is seen of that run. -/
theorem store_refines_restarts_once : ∃ s es t f, Started s
    ∧ (server Shared.plain).Shows (Lasting Shared.plain) (seen Shared.plain) s es t
    ∧ (∃ e ∈ es, e.1 = 7 ∧ e.2.found = some [1, 2, 3])
    ∧ (RecordStore.store Shared.plain.decompressGzip).Runs (fun _ => none) es f
    ∧ Models Shared.plain t.store f := by
  obtain ⟨s, es, t, hs, hshows, hfound⟩ := exists_restarted
  obtain ⟨f, hruns, hmodels⟩ := store_refines_restarts Shared.gzipOk_plain hs hshows
  exact ⟨s, es, t, f, hs, hshows, hfound, hruns, hmodels⟩

/-- The read of that record. -/
theorem answers_history_once : ∃ s es t pre post y pData, Started s
    ∧ (server Shared.plain).Shows (Lasting Shared.plain) (seen Shared.plain) s es t
    ∧ es = pre ++ (7, .read y pData (some [1, 2, 3])) :: post
    ∧ Answers Shared.plain.decompressGzip (Spec.eventsOf 7 pre)
      (.read y pData (some [1, 2, 3])) := by
  obtain ⟨s, es, t, hs, hshows, ⟨x, e⟩, he, rfl, hfound⟩ := exists_restarted
  obtain ⟨pre, post, hes⟩ := List.append_of_mem he
  cases e with
  | read y pData out =>
    cases hfound
    exact ⟨s, es, t, pre, post, y, pData, hs, hshows, hes,
      answers_history Shared.gzipOk_plain hs hshows hes⟩
  | _ => cases hfound


end Sys

end TransDB
