/-
What is in memory can be evicted.

A worker evicts the X it finds in its own `LRUCache`, and no worker looks into the
cache of another. `Visit` is what one worker function does to its cache and to the
main index: it puts the one X it uses into the cache, or it takes an X out of the
cache that is not in memory afterwards. So an X in memory stays in the cache of a
worker that has used it, whatever the others do, and the entries that are left over
in other caches do no harm.
-/
import TransDB.SystemQueue

set_option autoImplicit false

namespace TransDB

open DiskWriter Storage

/-! ## One worker function -/

/-- The block manager of `x` is in memory. -/
def Storage.Resident (st : Storage) (x : UInt64) : Prop :=
  ∃ r, st.m_dataIndexes.lookup x = some r ∧ r.m_pBlockManager ≠ none

/-- The entries of all X but one are the same. -/
def Storage.SameBut (x : UInt64) (st st' : Storage) : Prop :=
  ∀ y, y ≠ x → st'.m_dataIndexes.lookup y = st.m_dataIndexes.lookup y

/-- What a worker function does to the cache of its worker and to the main index. -/
inductive Visit (st : Storage) (lru : LRUCache) : Storage → LRUCache → Prop
  | nothing : Visit st lru st lru
  | used (x : UInt64) (st' : Storage) (lru' : LRUCache) (hput : lru.put x = some lru')
    (hother : st.SameBut x st') : Visit st lru st' lru'
  | dropped (x : UInt64) (found : Bool) (st' : Storage) (lru' : LRUCache)
    (hremove : lru.remove x = some (found, lru')) (hgone : ¬ st'.Resident x)
    (hother : st.SameBut x st') : Visit st lru st' lru'

namespace Storage

variable {sh : Shared} {st st' st'' : Storage} {lru lru' : LRUCache} {x y : UInt64}

theorem SameBut.refl (x : UInt64) (st : Storage) : st.SameBut x st := fun _ _ => rfl

theorem SameBut.trans (h : st.SameBut x st') (h' : st'.SameBut x st'') : st.SameBut x st'' := by
  intro y hy
  rw [h' y hy, h y hy]

theorem SameBut.insert {r : RecordIndex} (h : st'.m_dataIndexes = st.m_dataIndexes.insert x r) :
    st.SameBut x st' := by
  intro y hy
  rw [h, AList.lookup_insert_ne hy]

theorem CheckBlockManager_sameBut {r r' : RecordIndex} {m : Blman}
    (h : st.CheckBlockManager sh x r = some (st', r', m)) : st.SameBut x st' := by
  unfold CheckBlockManager at h
  cases hmgr : r.m_pBlockManager with
  | some m0 =>
    rw [hmgr] at h
    cases h
    exact SameBut.refl x st
  | none =>
    rw [hmgr] at h
    by_cases hrel : r.relocateBlocks = true
    · rw [if_pos hrel] at h
      cases h
    · rw [if_neg hrel] at h
      obtain ⟨bs, -, h⟩ := Option.bind_eq_some_iff.mp h
      obtain ⟨m0, -, h⟩ := Option.bind_eq_some_iff.mp h
      cases h
      exact SameBut.insert rfl

theorem withBlockManager_visit {β : Type} {read : Blman → Option β} {out : Option β}
    (h : st.withBlockManager sh lru x read = some (out, st', lru')) : Visit st lru st' lru' := by
  unfold withBlockManager at h
  cases hx : st.m_dataIndexes.lookup x with
  | none =>
    rw [hx] at h
    cases h
    exact .nothing
  | some r =>
    rw [hx] at h
    obtain ⟨lru1, hput, h⟩ := Option.bind_eq_some_iff.mp h
    obtain ⟨⟨st1, r1, m⟩, hcheck, h⟩ := Option.bind_eq_some_iff.mp h
    obtain ⟨out', -, h⟩ := Option.bind_eq_some_iff.mp h
    cases h
    exact .used x _ _ hput (CheckBlockManager_sameBut hcheck)

theorem WriteData_visit {cfg : WriteCfg} {cfgs : ℕ → WriteCfg} {pRecord : List UInt8}
    {status : WriteStatus}
    (h : st.WriteData sh cfg cfgs lru x y pRecord = some (status, st', lru')) :
    Visit st lru st' lru' := by
  obtain ⟨lru1, hput, h⟩ := Option.bind_eq_some_iff.mp h
  cases hx : st.m_dataIndexes.lookup x with
  | none =>
    rw [hx] at h
    obtain ⟨⟨status', st1⟩, hnew, h⟩ := Option.bind_eq_some_iff.mp h
    cases h
    obtain ⟨m, blockCount, -, rfl⟩ := writeNew_cases hnew
    exact .used x _ _ hput (SameBut.insert rfl)
  | some r =>
    rw [hx] at h
    obtain ⟨⟨st1, r1, m⟩, hcheck, h⟩ := Option.bind_eq_some_iff.mp h
    obtain ⟨⟨status', m'⟩, hw, h⟩ := Option.bind_eq_some_iff.mp h
    obtain ⟨st2, hafter, h⟩ := Option.bind_eq_some_iff.mp h
    cases h
    obtain ⟨e, -, rfl⟩ := afterWrite_eq hw hafter
    exact .used x _ _ hput
      ((CheckBlockManager_sameBut hcheck).trans (SameBut.insert Edit.apply_dataIndexes))

theorem DeleteData_visit (h : st.DeleteData sh lru x = some (st', lru')) :
    Visit st lru st' lru' := by
  unfold DeleteData at h
  cases hx : st.m_dataIndexes.lookup x with
  | none =>
    rw [hx] at h
    cases h
    exact .nothing
  | some r =>
    rw [hx] at h
    obtain ⟨⟨found, lru1⟩, hremove, h⟩ := Option.bind_eq_some_iff.mp h
    have hmap : ∀ mem : Storage, mem.m_dataIndexes = st.m_dataIndexes →
        Visit st lru { mem with m_dataIndexes := mem.m_dataIndexes.erase x } lru1 := by
      intro mem hmem
      refine .dropped x found _ _ hremove ?_ ?_
      · rintro ⟨r', hr', -⟩
        have hnone : (mem.m_dataIndexes.erase x).lookup x = some r' := hr'
        rw [AList.lookup_erase] at hnone
        cases hnone
      · intro y hy
        show (mem.m_dataIndexes.erase x).lookup y = _
        rw [AList.lookup_erase_ne hy, hmem]
    cases h
    refine hmap _ ?_
    cases r.m_pBlockManager with
    | some m => rfl
    | none => rfl

theorem DeleteRecord_visit (h : st.DeleteRecord sh lru x y = some (st', lru')) :
    Visit st lru st' lru' := by
  unfold DeleteRecord at h
  cases hx : st.m_dataIndexes.lookup x with
  | none =>
    rw [hx] at h
    cases h
    exact .nothing
  | some r =>
    rw [hx] at h
    obtain ⟨lru1, hput, h⟩ := Option.bind_eq_some_iff.mp h
    obtain ⟨⟨st1, r1, m⟩, hcheck, h⟩ := Option.bind_eq_some_iff.mp h
    obtain ⟨m', -, h⟩ := Option.bind_eq_some_iff.mp h
    cases h
    exact .used x _ _ hput ((CheckBlockManager_sameBut hcheck).trans (SameBut.insert rfl))

theorem DefragmentData_visit {cfgs : ℕ → WriteCfg}
    (h : st.DefragmentData sh cfgs lru x = some (st', lru')) : Visit st lru st' lru' := by
  unfold DefragmentData at h
  cases hx : st.m_dataIndexes.lookup x with
  | none =>
    rw [hx] at h
    cases h
    exact .nothing
  | some r =>
    rw [hx] at h
    obtain ⟨lru1, hput, h⟩ := Option.bind_eq_some_iff.mp h
    obtain ⟨⟨st1, r1, m⟩, hcheck, h⟩ := Option.bind_eq_some_iff.mp h
    obtain ⟨st2, hd, h⟩ := Option.bind_eq_some_iff.mp h
    cases h
    rw [DefragmentDataInternal_eq] at hd
    obtain ⟨e, -, rfl⟩ := Option.map_eq_some_iff.mp hd
    exact .used x _ _ hput
      ((CheckBlockManager_sameBut hcheck).trans (SameBut.insert Edit.apply_dataIndexes))

/-- A turn of `CheckMemory` takes an X out of the cache when it is not in memory any
more, or was not: because its manager has been destroyed by another worker, or because
it has been deleted. -/
theorem CheckMemory_visit {limit : UInt64}
    (h : st.CheckMemory sh limit lru = some (st', lru')) : Visit st lru st' lru' := by
  unfold CheckMemory at h
  by_cases hlim : limit < st.m_memoryUsed
  swap
  · rw [if_neg hlim] at h
    cases h
    exact .nothing
  rw [if_pos hlim] at h
  obtain ⟨first, -, h⟩ := Option.bind_eq_some_iff.mp h
  cases first with
  | none =>
    cases h
    exact .nothing
  | some x =>
    cases hx : st.m_dataIndexes.lookup x with
    | none =>
      simp only [hx] at h
      obtain ⟨⟨found, lru1⟩, hremove, h⟩ := Option.bind_eq_some_iff.mp h
      cases h
      refine .dropped x found _ _ hremove ?_ (SameBut.refl x st)
      rintro ⟨r, hr, -⟩
      rw [hx] at hr
      cases hr
    | some r =>
      simp only [hx] at h
      by_cases hq : r.inDiskWriteQueue = true
      · rw [if_pos hq] at h
        cases h
        exact .nothing
      rw [if_neg hq] at h
      obtain ⟨⟨found, lru1⟩, hremove, h⟩ := Option.bind_eq_some_iff.mp h
      cases h
      cases hmgr : r.m_pBlockManager with
      | none =>
        rw [evict, hmgr]
        refine .dropped x found _ _ hremove ?_ (SameBut.refl x st)
        rintro ⟨r', hr', hne⟩
        rw [hx] at hr'
        cases hr'
        exact hne hmgr
      | some m =>
        rw [evict_some hmgr]
        refine .dropped x found _ _ hremove ?_ (SameBut.insert rfl)
        rintro ⟨r', hr', hne⟩
        have hnew : (st.m_dataIndexes.insert x { r with m_pBlockManager := none }).lookup x
            = some r' := hr'
        rw [AList.lookup_insert] at hnew
        cases hnew
        exact hne rfl

end Storage

/-! ## The server -/

namespace Sys

variable {sh : Shared}

/-- The disk thread leaves the caches alone and loads no block manager. -/
theorem disk_resident {s t : Sys} {a : Action} {lost : List Region} (hinv : s.DInv lost)
    (ha : a.disk = true) (h : s.step sh a = some t) :
    t.lru = s.lru ∧ ∀ x, t.store.Resident x → s.store.Resident x := by
  cases step_move h with
  | worker store lru removing he hr hw =>
    rw [hw] at ha
    cases ha
  | remove x ha' hx => exact ⟨rfl, fun y hy => hy⟩
  | beginProcess order rs store hd hg =>
    obtain ⟨-, -, rfl⟩ := getDeleted_cases hg
    exact ⟨rfl, fun y hy => hy⟩
  | deleteItem cacheSize r rest store hd hi =>
    obtain ⟨index, file, log, erased, rfl⟩ := deleteItem_cases hi
    rw [Storage.foldl_addFreeSpace]
    exact ⟨rfl, fun y hy => hy⟩
  | getItems order items store hd hg =>
    obtain ⟨-, -, rfl⟩ := getItems_cases hg
    exact ⟨rfl, fun y hy => hy⟩
  | processItem cfg item items toAdd toAdd' store hd hp =>
    refine ⟨rfl, ?_⟩
    rcases hinv.item hd hp with
      ⟨-, rfl, rfl⟩ | ⟨r, m, r', ws, size, free, p, index, file, log, hi, rfl⟩
    · exact fun y hy => hy
    · have hstore := hi.store
      subst hstore
      rintro y ⟨ry, hy, hne⟩
      rcases Effect.lookup_insert_cases hy with ⟨rfl, -⟩ | ⟨-, hold⟩
      · refine ⟨r, hi.lookup, ?_⟩
        rw [hi.manager]
        exact Option.some_ne_none m
      · exact ⟨ry, hold, hne⟩
  | addFreeSpace r rest hd => exact ⟨rfl, fun y hy => hy⟩
  | endProcess hd => exact ⟨rfl, fun y hy => hy⟩
  | defragmentFreeSpace order ha' hd horder =>
    subst ha'
    cases ha
  | restart ReallocSize forceStartup order store ha' hd horder hi =>
    subst ha'
    cases ha

theorem visit_worker {s t : Sys} {w : ℕ} {f : LRUCache → Option (Storage × LRUCache)}
    (h : s.worker w f = some t)
    (hf : ∀ st lru, f (s.lru w) = some (st, lru) → Visit s.store (s.lru w) st lru) :
    ∃ w c, Visit s.store (s.lru w) t.store c ∧ t.lru = Function.update s.lru w c := by
  obtain ⟨st, lru, hrun, rfl⟩ := worker_some h
  exact ⟨w, lru, hf st lru hrun, rfl⟩

/-- A step is a visit of one worker, or it leaves the caches alone and loads nothing. -/
theorem step_visit {s t : Sys} {a : Action} {lost : List Region} (hinv : s.DInv lost)
    (ha : a.plain = true) (h : s.step sh a = some t) :
    (∃ w c, Visit s.store (s.lru w) t.store c ∧ t.lru = Function.update s.lru w c)
      ∨ t.lru = s.lru ∧ ∀ x, t.store.Resident x → s.store.Resident x := by
  by_cases hdisk : a.disk = true
  · exact Or.inr (disk_resident hinv hdisk h)
  cases a with
  | readRecord w x y pData =>
    rw [step] at h
    refine Or.inl (visit_worker h fun st lru hf => ?_)
    obtain ⟨⟨out, st', lru'⟩, hr, heq⟩ := Option.map_eq_some_iff.mp hf
    cases heq
    exact withBlockManager_visit hr
  | readAll w x pData =>
    rw [step] at h
    refine Or.inl (visit_worker h fun st lru hf => ?_)
    obtain ⟨⟨out, st', lru'⟩, hr, heq⟩ := Option.map_eq_some_iff.mp hf
    cases heq
    exact withBlockManager_visit hr
  | getAllY w x =>
    rw [step] at h
    refine Or.inl (visit_worker h fun st lru hf => ?_)
    obtain ⟨⟨out, st', lru'⟩, hr, heq⟩ := Option.map_eq_some_iff.mp hf
    cases heq
    exact withBlockManager_visit hr
  | writeData w cfg cfgs x y pRecord =>
    rw [step] at h
    refine Or.inl (visit_worker h fun st lru hf => ?_)
    obtain ⟨⟨status, st', lru'⟩, hw, heq⟩ := Option.map_eq_some_iff.mp hf
    cases heq
    exact WriteData_visit hw
  | deleteData w x =>
    obtain ⟨s', hw, h⟩ := Option.bind_eq_some_iff.mp h
    cases h
    have hv := visit_worker hw fun st lru hf => DeleteData_visit hf
    exact Or.inl hv
  | remove x =>
    rw [step] at h
    by_cases hx : x ∈ s.removing
    · rw [if_pos hx] at h
      cases h
      exact Or.inr ⟨rfl, fun y hy => hy⟩
    · rw [if_neg hx] at h
      cases h
  | deleteRecord w x y =>
    rw [step] at h
    exact Or.inl (visit_worker h fun st lru hf => DeleteRecord_visit hf)
  | defragmentData w cfgs x =>
    rw [step] at h
    exact Or.inl (visit_worker h fun st lru hf => DefragmentData_visit hf)
  | checkMemory w limit =>
    rw [step] at h
    exact Or.inl (visit_worker h fun st lru hf => CheckMemory_visit hf)
  | beginProcess order => exact absurd rfl hdisk
  | deleteItem cacheSize => exact absurd rfl hdisk
  | getItems order => exact absurd rfl hdisk
  | processItem cfg => exact absurd rfl hdisk
  | addFreeSpace => exact absurd rfl hdisk
  | endProcess => exact absurd rfl hdisk
  | defragmentFreeSpace order => cases ha
  | restart ReallocSize forceStartup order => cases ha

end Sys

/-- The caches are the lists `ls`, and every X in memory is in one of them. -/
structure Cached (st : Storage) (lru : ℕ → LRUCache) (ls : ℕ → List UInt64) : Prop where
  isList : ∀ w, (lru w).IsList (ls w)
  cached : ∀ x, st.Resident x → ∃ w, x ∈ ls w

namespace Cached

variable {st st' : Storage} {lru : ℕ → LRUCache} {ls : ℕ → List UInt64}

/-- A new list for one worker, in which no X is missing but one that is not in memory. -/
theorem update (h : Cached st lru ls) {w : ℕ} {c : LRUCache} {l : List UInt64} {x : UInt64}
    (hl : c.IsList l) (hkeep : ∀ y, y ≠ x → y ∈ ls w → y ∈ l) (hx : st'.Resident x → x ∈ l)
    (hsame : st.SameBut x st') :
    Cached st' (Function.update lru w c) (Function.update ls w l) := by
  refine ⟨?_, ?_⟩
  · intro v
    by_cases hv : v = w
    · subst hv
      rw [Function.update_self, Function.update_self]
      exact hl
    · rw [Function.update_of_ne hv, Function.update_of_ne hv]
      exact h.isList v
  · intro y hy
    by_cases hyx : y = x
    · subst hyx
      refine ⟨w, ?_⟩
      rw [Function.update_self]
      exact hx hy
    · obtain ⟨r, hr, hne⟩ := hy
      rw [hsame y hyx] at hr
      obtain ⟨v, hmem⟩ := h.cached y ⟨r, hr, hne⟩
      refine ⟨v, ?_⟩
      by_cases hv : v = w
      · subst hv
        rw [Function.update_self]
        exact hkeep y hyx hmem
      · rw [Function.update_of_ne hv]
        exact hmem

theorem visit (h : Cached st lru ls) {w : ℕ} {c : LRUCache} (hv : Visit st (lru w) st' c) :
    ∃ ls', Cached st' (Function.update lru w c) ls' := by
  cases hv with
  | nothing =>
    rw [Function.update_eq_self]
    exact ⟨ls, h⟩
  | used x _ _ hput hother =>
    obtain ⟨c', hput', hl⟩ := (h.isList w).put x
    rw [hput] at hput'
    cases hput'
    refine ⟨_, h.update hl ?_ ?_ hother⟩
    · intro y hyx hy
      exact List.mem_append_left _ ((List.mem_erase_of_ne hyx).mpr hy)
    · intro _
      exact List.mem_append_right _ (List.mem_singleton_self x)
  | dropped x found _ _ hremove hgone hother =>
    obtain ⟨c', hremove', hl⟩ := (h.isList w).remove x
    rw [hremove] at hremove'
    cases hremove'
    refine ⟨_, h.update hl ?_ ?_ hother⟩
    · intro y hyx hy
      exact (List.mem_erase_of_ne hyx).mpr hy
    · intro hres
      exact absurd hres hgone

end Cached

namespace Sys

variable {sh : Shared}

/-- The division of the data file, and the caches. -/
def CInv (s : Sys) : Prop := (∃ lost, s.DInv lost) ∧ ∃ ls, Cached s.store s.lru ls

theorem AfterInit.cinv {s : Sys} (h : AfterInit sh s) : s.CInv := by
  refine ⟨h.dinv, fun _ => [], ?_⟩
  obtain ⟨order, files, log, rfl, -, -⟩ := h.cases
  refine ⟨fun w => LRUCache.IsList.empty, ?_⟩
  rintro x ⟨r, hr, hne⟩
  rcases lookup_fillMap_some hr with hnone | ⟨e, -, -, rfl⟩
  · cases hnone
  · exact absurd rfl hne

theorem CInv.step {s t : Sys} {a : Action} (h : s.CInv) (ha : a.plain = true)
    (hs : s.step sh a = some t) : t.CInv := by
  obtain ⟨⟨lost, hd⟩, ls, hc⟩ := h
  refine ⟨hd.move ha (step_move hs), ?_⟩
  rcases step_visit hd ha hs with ⟨w, c, hv, hlru⟩ | ⟨hlru, hres⟩
  · rw [hlru]
    exact hc.visit hv
  · rw [hlru]
    exact ⟨ls, hc.isList, fun x hx => hc.cached x (hres x hx)⟩

/-- In every state of every interleaving, an X whose block manager is in memory is in
the cache of a worker, in its map and in its list. -/
theorem resident_evictable {s : Sys} (h : (life sh).Reach (fun _ a _ => a.plain = true) s)
    {x : UInt64} {r : RecordIndex} {m : Blman} (hx : s.store.m_dataIndexes.lookup x = some r)
    (hm : r.m_pBlockManager = some m) :
    ∃ w, x ∈ (s.lru w).m_pMap ∧ ∃ l, (s.lru w).IsList l ∧ x ∈ l := by
  have hinv : s.CInv := h.invariant CInv (fun s hs => AfterInit.cinv hs)
    fun s a t hs ha hstep => hs.step ha hstep
  obtain ⟨-, ls, hc⟩ := hinv
  have hres : s.store.Resident x := by
    refine ⟨r, hx, ?_⟩
    rw [hm]
    exact Option.some_ne_none m
  obtain ⟨w, hw⟩ := hc.cached x hres
  exact ⟨w, (hc.isList w).mem_map.mpr hw, ls w, hc.isList w, hw⟩

/-- Worker 0 has X=7 in its cache from before it was evicted by worker 1, and drops
it; worker 2 has loaded it. -/
theorem resident_evictable_again : ∃ (s : Sys) (r : RecordIndex) (m : Blman),
    (life Shared.plain).Reach (fun _ a _ => a.plain = true) s
    ∧ s.store.m_dataIndexes.lookup 7 = some r ∧ r.m_pBlockManager = some m
    ∧ (s.lru 0).m_pMap.lookup 7 = none
    ∧ ∃ w, 7 ∈ (s.lru w).m_pMap ∧ ∃ l, (s.lru w).IsList l ∧ 7 ∈ l := by
  have hrun : (fresh.bind fun s => (life Shared.plain).run (fun _ a => a.plain) s
      [put 0 7 1,
        .getAllY 1 7, .beginProcess [], .getItems [7], .processItem ⟨4096, 64⟩, .endProcess,
        .checkMemory 1 0, .writeData 3 (plainCfg 1000 5) (fun _ => plainCfg 1000 5) 8 1 [4],
        .checkMemory 0 0, .getAllY 2 7]).any
      (fun s => ((s.lru 0).m_pMap.lookup 7).isNone && (s.store.m_dataIndexes.lookup 7).any
        fun r => r.m_pBlockManager.isSome) = true := by
    decide +kernel
  obtain ⟨s, t, hs, hsteps, ht⟩ :=
    exists_run _ (fun (_ : Sys) (a : Action) (_ : Sys) (h : a.plain = true) => h) hrun
  have hreach := (Machine.Reach.init s (AfterInit.empty s hs)).steps hsteps
  rw [Bool.and_eq_true, Option.any_eq_true] at ht
  obtain ⟨hgone, r, hr, hm⟩ := ht
  obtain ⟨m, hm⟩ := Option.isSome_iff_exists.mp hm
  exact ⟨t, r, m, hreach, hr, hm, Option.isNone_iff_eq_none.mp hgone,
    resident_evictable hreach hr hm⟩

end Sys

end TransDB
