/-
The server refines the store its clients see.

`seen` is the event that a worker function is to a client: what was asked of which X, and
the answer. Whatever the interleaving of the workers and the disk thread, what is seen of a
run is a run of `RecordStore`: loading, evicting and flushing an X, and giving its space
back, are not seen at all. Two things must not happen on the way: a write that forgets
(`Forgets`), after which an eviction brings a removed record back, and a defragmentation
that loses records (`Repacks`).

The relation says nothing of an X that cannot be loaded again: no worker function on it
returns, but a deletion.
-/
import TransDB.BlockManagerView
import TransDB.SystemRefused

set_option autoImplicit false

namespace TransDB

open DiskWriter Storage RecordStore

/-- The X of the store, each with its records as they are read. -/
structure Models (sh : Shared) (st : Storage) (f : UInt64 → Option RecordMap) : Prop where
  key : ∀ x, x ∈ st.m_dataIndexes ↔ f x ≠ none
  records : ∀ x g, st.recordsOf sh x = some g → f x = some (RecordMap.view sh g)

/-- A worker leaves `x` with the block manager `m`, and touches nothing else. -/
structure Storage.Leaves (st : Storage) (x : UInt64) (m : Blman) (st' : Storage) : Prop where
  other : st.SameBut x st'
  data : st'.files.data = st.files.data
  entry : ∃ r, st'.m_dataIndexes.lookup x = some r ∧ r.m_pBlockManager = some m

namespace Storage

variable {sh : Shared} {st st' st'' : Storage} {lru lru' : LRUCache} {x y : UInt64} {m m' : Blman}

theorem Leaves.trans (h : st.Leaves x m st') (h' : st'.Leaves x m' st'') : st.Leaves x m' st'' where
  other := h.other.trans h'.other
  data := h'.data.trans h.data
  entry := h'.entry

theorem Leaves.recordsOf (h : st.Leaves x m st') : st'.recordsOf sh x = some m.contents := by
  obtain ⟨r, hx, hm⟩ := h.entry
  rw [Storage.recordsOf, managerOf_eq_managerIn, hx, Option.bind_some,
    RecordIndex.managerIn_resident _ hm, Option.map_some]

theorem Leaves.edit {r : RecordIndex} {e : Edit} (he : e.after = m) :
    st.Leaves x m (e.apply st x r) where
  other := SameBut.insert Edit.apply_dataIndexes
  data := by rw [Edit.apply_sameDisk.files]
  entry := ⟨_, by rw [Edit.apply_dataIndexes, AList.lookup_insert], congrArg some he⟩

theorem Leaves.check {r r' : RecordIndex} (hx : st.m_dataIndexes.lookup x = some r)
    (h : st.CheckBlockManager sh x r = some (st', r', m)) : st.Leaves x m st' where
  other := CheckBlockManager_sameBut h
  data := by rw [CheckBlockManager_files h]
  entry := by
    obtain ⟨-, hx', hm⟩ : Effects sh ⟨fun _ _ _ => False, fun _ => False⟩ st st' ∧ _ :=
      CheckBlockManager_cases hx h
    exact ⟨r', hx', hm⟩

/-! ## What a worker function answers, and what it leaves -/

theorem withBlockManager_reply {β : Type} {read : Blman → Option β} {out : Option β}
    (h : st.withBlockManager sh lru x read = some (out, st', lru')) :
    (st.m_dataIndexes.lookup x = none ∧ out = none ∧ st' = st)
      ∨ ∃ m o, st.managerOf sh x = some m ∧ read m = some o ∧ out = some o
        ∧ st.Leaves x m st' := by
  unfold withBlockManager at h
  cases hx : st.m_dataIndexes.lookup x with
  | none =>
    rw [hx] at h
    cases h
    exact Or.inl ⟨rfl, rfl, rfl⟩
  | some r =>
    rw [hx] at h
    obtain ⟨lru1, -, h⟩ := Option.bind_eq_some_iff.mp h
    obtain ⟨⟨st1, r1, m⟩, hcheck, h⟩ := Option.bind_eq_some_iff.mp h
    obtain ⟨o, hread, h⟩ := Option.bind_eq_some_iff.mp h
    cases h
    exact Or.inr ⟨m, o, managerOf_eq hx hcheck, hread, rfl, .check hx hcheck⟩

theorem WriteData_reply {cfg : WriteCfg} {cfgs : ℕ → WriteCfg} {pRecord : List UInt8}
    {status : WriteStatus}
    (h : st.WriteData sh cfg cfgs lru x y pRecord = some (status, st', lru')) :
    (st.m_dataIndexes.lookup x = none ∧ ∃ m m', Blman.create none = some m
        ∧ m.writeRecord sh cfg y pRecord = some (status, m') ∧ st.Leaves x m' st')
      ∨ ∃ m e, st.managerOf sh x = some m
        ∧ Edit.write sh cfg cfgs y pRecord m = some (status, e) ∧ st.Leaves x e.after st' := by
  obtain ⟨lru1, -, h⟩ := Option.bind_eq_some_iff.mp h
  cases hx : st.m_dataIndexes.lookup x with
  | none =>
    rw [hx] at h
    obtain ⟨⟨status1, st1⟩, hnew, h⟩ := Option.bind_eq_some_iff.mp h
    cases h
    simp only [writeNew, Option.bind_eq_bind, Option.bind_eq_some_iff] at hnew
    obtain ⟨m, hm, ⟨status2, m'⟩, hw, hnew⟩ := hnew
    cases hnew
    refine Or.inl ⟨rfl, m, m', hm, hw, SameBut.insert rfl, rfl, _, AList.lookup_insert _, rfl⟩
  | some r =>
    rw [hx] at h
    obtain ⟨⟨st1, r1, m⟩, hcheck, h⟩ := Option.bind_eq_some_iff.mp h
    obtain ⟨⟨status1, m'⟩, hw, h⟩ := Option.bind_eq_some_iff.mp h
    obtain ⟨st2, hafter, h⟩ := Option.bind_eq_some_iff.mp h
    cases h
    obtain ⟨e, he, rfl⟩ := afterWrite_eq hw hafter
    exact Or.inr ⟨m, e, managerOf_eq hx hcheck, he, (Leaves.check hx hcheck).trans (.edit rfl)⟩

theorem DeleteRecord_reply (h : st.DeleteRecord sh lru x y = some (st', lru')) :
    (st.m_dataIndexes.lookup x = none ∧ st' = st)
      ∨ ∃ m m', st.managerOf sh x = some m ∧ m.deleteRecordByKey y = some m'
        ∧ st.Leaves x m' st' := by
  unfold DeleteRecord at h
  cases hx : st.m_dataIndexes.lookup x with
  | none =>
    rw [hx] at h
    cases h
    exact Or.inl ⟨rfl, rfl⟩
  | some r =>
    rw [hx] at h
    obtain ⟨lru1, -, h⟩ := Option.bind_eq_some_iff.mp h
    obtain ⟨⟨st1, r1, m⟩, hcheck, h⟩ := Option.bind_eq_some_iff.mp h
    obtain ⟨m', hd, h⟩ := Option.bind_eq_some_iff.mp h
    cases h
    refine Or.inr ⟨m, m', managerOf_eq hx hcheck, hd, (Leaves.check hx hcheck).trans ?_⟩
    exact ⟨SameBut.insert rfl, rfl, _, AList.lookup_insert _, rfl⟩

theorem DefragmentData_reply {cfgs : ℕ → WriteCfg}
    (h : st.DefragmentData sh cfgs lru x = some (st', lru')) :
    (st.m_dataIndexes.lookup x = none ∧ st' = st)
      ∨ ∃ m m', st.managerOf sh x = some m ∧ m.defragmentData sh cfgs = some m'
        ∧ st.Leaves x m' st' := by
  unfold DefragmentData at h
  cases hx : st.m_dataIndexes.lookup x with
  | none =>
    rw [hx] at h
    cases h
    exact Or.inl ⟨rfl, rfl⟩
  | some r =>
    rw [hx] at h
    obtain ⟨lru1, -, h⟩ := Option.bind_eq_some_iff.mp h
    obtain ⟨⟨st1, r1, m⟩, hcheck, h⟩ := Option.bind_eq_some_iff.mp h
    obtain ⟨st2, hd, h⟩ := Option.bind_eq_some_iff.mp h
    cases h
    rw [DefragmentDataInternal_eq] at hd
    obtain ⟨e, he, rfl⟩ := Option.map_eq_some_iff.mp hd
    obtain ⟨m', hm', he⟩ := Option.bind_eq_some_iff.mp he
    cases he
    exact Or.inr ⟨m, m', managerOf_eq hx hcheck, hm', (Leaves.check hx hcheck).trans (.edit rfl)⟩

/-- A turn of `CheckMemory` destroys one manager whose X does not wait to be written, or
none. -/
theorem CheckMemory_reply {limit : UInt64} (h : st.CheckMemory sh limit lru = some (st', lru')) :
    st' = st ∨ ∃ x r m, st.m_dataIndexes.lookup x = some r ∧ r.m_pBlockManager = some m
      ∧ r.inDiskWriteQueue = false ∧ st' = st.evict sh x r := by
  unfold CheckMemory at h
  by_cases hlim : limit < st.m_memoryUsed
  swap
  · rw [if_neg hlim] at h
    cases h
    exact Or.inl rfl
  rw [if_pos hlim] at h
  obtain ⟨found, -, h⟩ := Option.bind_eq_some_iff.mp h
  cases found with
  | none =>
    cases h
    exact Or.inl rfl
  | some x =>
    cases hx : st.m_dataIndexes.lookup x with
    | none =>
      simp only [hx] at h
      obtain ⟨⟨found, lru1⟩, -, h⟩ := Option.bind_eq_some_iff.mp h
      cases h
      exact Or.inl rfl
    | some r =>
      simp only [hx] at h
      by_cases hq : r.inDiskWriteQueue = true
      · rw [if_pos hq] at h
        cases h
        exact Or.inl rfl
      rw [if_neg hq] at h
      obtain ⟨⟨found, lru1⟩, -, h⟩ := Option.bind_eq_some_iff.mp h
      cases h
      cases hmgr : r.m_pBlockManager with
      | some m => exact Or.inr ⟨x, r, m, hx, hmgr, Bool.eq_false_iff.mpr hq, rfl⟩
      | none =>
        rw [evict, hmgr]
        exact Or.inl rfl

end Storage

/-! ## What the clients see of a store -/

namespace Models

variable {sh : Shared} {st st' : Storage} {f : UInt64 → Option RecordMap} {x : UInt64} {m : Blman}

theorem absent (h : Models sh st f) (hx : st.m_dataIndexes.lookup x = none) : f x = none := by
  by_contra hne
  have hmem := AList.lookup_isSome.mpr ((h.key x).mpr hne)
  rw [hx] at hmem
  cases hmem

theorem found (h : Models sh st f) (hm : st.managerOf sh x = some m) :
    f x = some (RecordMap.view sh m.contents) :=
  h.records x m.contents (by rw [recordsOf, hm, Option.map_some])

theorem sameX (h : Models sh st f) (hs : ∀ x, SameX sh st st' x) : Models sh st' f where
  key x := (hs x).key.trans (h.key x)
  records x g hg := h.records x g ((hs x).records.symm.trans hg)

/-- One X has other records, and the others are as they were. -/
theorem update (h : Models sh st f) (hother : ∀ y, y ≠ x → SameX sh st st' y) {o : Option RecordMap}
    (hkey : x ∈ st'.m_dataIndexes ↔ o ≠ none)
    (hrec : ∀ g, st'.recordsOf sh x = some g → o = some (RecordMap.view sh g)) :
    Models sh st' (Function.update f x o) where
  key y := by
    by_cases hy : y = x
    · subst hy
      rw [Function.update_self, hkey]
    · rw [Function.update_of_ne hy, (hother y hy).key, h.key y]
  records y g hg := by
    by_cases hy : y = x
    · subst hy
      rw [Function.update_self]
      exact hrec g hg
    · rw [Function.update_of_ne hy]
      exact h.records y g ((hother y hy).records.symm.trans hg)

theorem leaves (h : Models sh st f) (hl : st.Leaves x m st') :
    Models sh st' (Function.update f x (some (RecordMap.view sh m.contents))) := by
  refine h.update (fun y hy => .of_lookup (hl.other y hy) fun r _ => by rw [hl.data]) ?_ ?_
  · obtain ⟨r, hx, -⟩ := hl.entry
    refine iff_of_true (AList.lookup_isSome.mp ?_) (Option.some_ne_none _)
    rw [hx]
    rfl
  · intro g hg
    rw [hl.recordsOf] at hg
    rw [Option.some.inj hg]

theorem deleted (h : Models sh st f) (r : RecordIndex) :
    Models sh (st.deleted sh x r) (Function.update f x none) := by
  have hlive : (st.deleted sh x r).m_dataIndexes = st.m_dataIndexes.erase x := rfl
  have hother : ∀ y, y ≠ x → SameX sh st (st.deleted sh x r) y := by
    intro y hy
    refine .of_lookup ?_ fun _ _ => rfl
    rw [hlive, AList.lookup_erase_ne hy]
  refine h.update hother ?_ ?_
  · rw [hlive]
    exact iff_of_false (fun hmem => (AList.mem_erase.mp hmem).1 rfl) fun hne => hne rfl
  · intro g hg
    rw [recordsOf, managerOf_eq_managerIn, hlive, AList.lookup_erase] at hg
    cases hg

/-- An X that is loaded again has the records it had. -/
theorem evicted (h : Models sh st f) (hclean : st.Clean)
    (hok : ∀ x r, st.m_dataIndexes.lookup x = some r → EntryOk st.files.data r) {r : RecordIndex}
    (hx : st.m_dataIndexes.lookup x = some r) (hm : r.m_pBlockManager = some m)
    (hidle : r.inDiskWriteQueue = false) : Models sh (st.evict sh x r) f := by
  have hlive : (st.evict sh x r).m_dataIndexes
      = st.m_dataIndexes.insert x { r with m_pBlockManager := none } := by
    rw [evict_some hm]
    rfl
  have hdata : (st.evict sh x r).files.data = st.files.data := by
    rw [evict_some hm]
    rfl
  have hmgr : st.managerOf sh x = some m := by
    rw [managerOf_eq_managerIn, hx, Option.bind_some, RecordIndex.managerIn_resident _ hm]
  have hfound := h.found hmgr
  have hother : ∀ y, y ≠ x → SameX sh st (st.evict sh x r) y := by
    intro y hy
    refine .of_lookup ?_ fun _ _ => by rw [hdata]
    rw [hlive, AList.lookup_insert_ne hy]
  have hgoal := h.update hother (o := f x) ?_ ?_
  · rwa [Function.update_eq_self] at hgoal
  · rw [hlive, hfound]
    exact iff_of_true ((AList.mem_insert _).mpr (Or.inl rfl)) (Option.some_ne_none _)
  · intro g hg
    have hread := hclean x r m hx hm hidle
    obtain ⟨m', hm', rfl⟩ := Option.map_eq_some_iff.mp hg
    rw [managerOf_eq_managerIn, hlive, AList.lookup_insert, Option.bind_some, hdata,
      RecordIndex.managerIn] at hm'
    dsimp only at hm'
    split at hm'
    case isTrue => cases hm'
    case isFalse =>
      have hinv := (hok x r hx).manager m hm
      rw [hread, Option.bind_some] at hm'
      rw [hfound, Blman.contents, Blman.contents,
        (Blman.create_some hinv.sound hinv.nonempty hinv.count_lt hm').2]

variable {z : List UInt8 → Option (List UInt8)} {e : Event}

/-- An event of an X that is not there, and stays so. -/
theorem next_absent (h : Models sh st f) (hx : st.m_dataIndexes.lookup x = none)
    (hn : Next z none e none) : ∃ f', (store z).next f (x, e) f' ∧ Models sh st f' := by
  refine ⟨f, ⟨?_, fun _ _ => rfl⟩, h⟩
  show Next z (f x) e (f x)
  rwa [h.absent hx]

/-- An event that leaves its X with the manager `m`. -/
theorem next_leaves (h : Models sh st f) (hl : st.Leaves x m st')
    (hn : Next z (f x) e (some (RecordMap.view sh m.contents))) :
    ∃ f', (store z).next f (x, e) f' ∧ Models sh st' f' := by
  refine ⟨_, ⟨?_, fun y hy => Function.update_of_ne hy _ f⟩, h.leaves hl⟩
  show Next z (f x) e (Function.update f x _ x)
  rwa [Function.update_self]

end Models

/-! ## What is seen of the server -/

/-- The defragmentation of the manager loses nothing. -/
structure Blman.Repacked (sh : Shared) (cfgs : ℕ → WriteCfg) (m : Blman) : Prop where
  limit : ∀ i, LimitKept (cfgs i) m.blockIndex.count
  repacks : Repacks sh cfgs m

namespace Sys

/-- What a worker function is to the client: what was asked, of which X, and the answer. -/
def seen (sh : Shared) (s : Sys) : Action → Option (UInt64 × Event)
  | .readRecord w x y pData =>
    (s.store.ReadData sh (s.lru w) x y pData).map fun p => (x, .read y pData p.1)
  | .readAll w x pData =>
    (s.store.ReadDataAll sh (s.lru w) x pData).map fun p => (x, .readAll pData p.1)
  | .getAllY w x => (s.store.GetAllY sh (s.lru w) x).map fun p => (x, .keys p.1)
  | .writeData w cfg cfgs x y pRecord =>
    (s.store.WriteData sh cfg cfgs (s.lru w) x y pRecord).map fun p =>
      (x, .write cfg y pRecord p.1)
  | .deleteData _ x => some (x, .delete)
  | .deleteRecord _ x y => some (x, .deleteRecord y)
  | .defragmentData _ _ x => some (x, .defragment)
  | _ => none

/-- No defragmentation loses records: one that is asked for, or one after a write. -/
def Repacked (sh : Shared) (s : Sys) : Action → Prop
  | .defragmentData _ cfgs x => ∀ m ∈ s.store.managerOf sh x, m.Repacked sh cfgs
  | .writeData _ cfg cfgs x y pRecord => ∀ m ∈ s.store.managerOf sh x,
    ∀ p ∈ m.writeRecord sh cfg y pRecord, p.1.needDefrag = true → p.2.Repacked sh cfgs
  | _ => True

/-- The steps of the runs in which nothing is lost. -/
structure Faithful (sh : Shared) (s : Sys) (a : Action) (t : Sys) : Prop where
  plain : a.plain = true
  remembers : ¬ s.Forgets sh a
  repacked : s.Repacked sh a

variable {sh : Shared} {s t : Sys} {a : Action}

theorem DInv.manager_inv {lost : List Region} (h : s.DInv lost) {x : UInt64} {m : Blman}
    (hm : s.store.managerOf sh x = some m) : m.Inv := by
  rw [managerOf_eq_managerIn] at hm
  obtain ⟨r, hx, hm⟩ := Option.bind_eq_some_iff.mp hm
  exact (h.entry x r hx).manager_inv hm

section Steps

variable {f : UInt64 → Option RecordMap} {lost : List Region}

/-- What is not seen leaves the X and their records as they are. -/
theorem models_hidden (hd : s.DInv lost) (hclean : s.store.Clean) (h : Models sh s.store f)
    (hs : s.step sh a = some t) (hseen : s.seen sh a = none) (ha : a.plain = true) :
    Models sh t.store f := by
  by_cases hdisk : a.disk = true
  · exact h.sameX (sameX_move ⟨lost, hd⟩ hdisk (step_move hs))
  have hreply : ∀ {w : ℕ} {β : Type} {reply : Option (β × Storage × LRUCache)}
      {event : β × Storage × LRUCache → UInt64 × Event},
      (s.worker w fun _ => reply.map Prod.snd) = some t → reply.map event = none → False := by
    intro w β reply event hw hnone
    obtain ⟨store, lru, hr, -⟩ := worker_some hw
    rw [Option.map_eq_none_iff] at hnone
    rw [hnone] at hr
    cases hr
  cases a with
  | readRecord w x y pData => exact (hreply hs hseen).elim
  | readAll w x pData => exact (hreply hs hseen).elim
  | getAllY w x => exact (hreply hs hseen).elim
  | writeData w cfg cfgs x y pRecord => exact (hreply hs hseen).elim
  | deleteData w x => cases hseen
  | remove x =>
    rw [step] at hs
    split at hs
    case isTrue =>
      cases hs
      exact h.sameX fun _ => .of_eq rfl rfl
    case isFalse => cases hs
  | deleteRecord w x y => cases hseen
  | defragmentData w cfgs x => cases hseen
  | checkMemory w limit =>
    rw [step] at hs
    obtain ⟨store, lru, hc, rfl⟩ := worker_some hs
    rcases CheckMemory_reply hc with rfl | ⟨x, r, m, hx, hm, hidle, rfl⟩
    · exact h
    · exact h.evicted hclean hd.entry hx hm hidle
  | defragmentFreeSpace order => cases ha
  | restart ReallocSize forceStartup order => cases ha
  | _ => exact absurd rfl hdisk

/-- A read that answers leaves the X as it is. -/
theorem read_seen {β : Type} {lru lru' : LRUCache} {x : UInt64} {read : Blman → Option β}
    {st : Storage} {out : Option β} {e : Option β → Event} (hd : s.DInv lost)
    (h : Models sh s.store f)
    (hr : s.store.withBlockManager sh lru x read = some (out, st, lru'))
    (habsent : Next sh.decompressGzip none (e none) none)
    (hfound : ∀ m o, m.Inv → read m = some o →
      Next sh.decompressGzip (some (RecordMap.view sh m.contents)) (e (some o))
        (some (RecordMap.view sh m.contents))) :
    ∃ f', (RecordStore.store sh.decompressGzip).next f (x, e out) f' ∧ Models sh st f' := by
  rcases withBlockManager_reply hr with ⟨hx, rfl, rfl⟩ | ⟨m, o, hm, ho, rfl, hl⟩
  · exact h.next_absent hx habsent
  · refine h.next_leaves hl ?_
    rw [h.found hm]
    exact hfound m o (hd.manager_inv hm) ho

/-- What is seen is a step of the store of the clients. -/
theorem models_seen (hz : GzipOk sh) (hd : s.DInv lost) (h : Models sh s.store f)
    (hok : s.Repacked sh a) (hs : s.step sh a = some t) {e : UInt64 × Event}
    (hseen : s.seen sh a = some e) :
    ∃ f', (RecordStore.store sh.decompressGzip).next f e f' ∧ Models sh t.store f' := by
  cases a with
  | readRecord w x y pData =>
    obtain ⟨⟨out, st, lru⟩, hr, rfl⟩ := Option.map_eq_some_iff.mp hseen
    rw [step] at hs
    obtain ⟨st', lru', hw, rfl⟩ := worker_some hs
    rw [hr] at hw
    cases hw
    exact read_seen (e := fun out => .read y pData out) hd h hr (.readAbsent y pData)
      fun m o hinv ho => hinv.readRecord_next hz ho
  | readAll w x pData =>
    obtain ⟨⟨out, st, lru⟩, hr, rfl⟩ := Option.map_eq_some_iff.mp hseen
    rw [step] at hs
    obtain ⟨st', lru', hw, rfl⟩ := worker_some hs
    rw [hr] at hw
    cases hw
    exact read_seen (e := fun out => .readAll pData out) hd h hr (.readAllAbsent pData)
      fun m o hinv ho => hinv.readRecords_next hz ho
  | getAllY w x =>
    obtain ⟨⟨out, st, lru⟩, hr, rfl⟩ := Option.map_eq_some_iff.mp hseen
    rw [step] at hs
    obtain ⟨st', lru', hw, rfl⟩ := worker_some hs
    rw [hr] at hw
    cases hw
    refine read_seen (e := .keys) hd h hr .keysAbsent fun m o hinv ho => ?_
    cases ho
    exact hinv.getAllRecordKeys_next
  | writeData w cfg cfgs x y pRecord =>
    obtain ⟨⟨status, st, lru⟩, hr, rfl⟩ := Option.map_eq_some_iff.mp hseen
    rw [step] at hs
    obtain ⟨st', lru', hw, rfl⟩ := worker_some hs
    rw [hr] at hw
    cases hw
    rcases WriteData_reply hr with ⟨hx, m, m', hm, hwrite, hl⟩ | ⟨m, edit, hm, hedit, hl⟩
    · obtain ⟨m1, hm1, hinv, -⟩ := Blman.create_none
      rw [hm] at hm1
      cases hm1
      refine h.next_leaves hl ((Blman.writeRecord_cases hinv hwrite).next hz hinv ?_)
      rw [h.absent hx, Option.getD_none, Blman.view_create hm]
    · have hinv := hd.manager_inv hm
      obtain ⟨m', hwrite, hcases⟩ := Edit.write_cases hedit
      have hwrote := Blman.writeRecord_cases hinv hwrite
      have hnext : Next sh.decompressGzip (f x) (.write cfg y pRecord status)
          (some (RecordMap.view sh m'.contents)) := by
        refine hwrote.next hz hinv ?_
        rw [h.found hm, Option.getD_some]
      refine h.next_leaves hl ?_
      rcases hcases with ⟨-, rfl⟩ | ⟨-, -, rfl⟩ | ⟨-, -, hdef, hdefrag⟩ | ⟨-, -, -, rfl⟩
      · exact hnext
      · exact hnext
      · obtain ⟨m1, hm1, hafter⟩ := Option.bind_eq_some_iff.mp hdefrag
        cases hafter
        have hrepacked := hok m hm (status, m') hwrite hdef
        rwa [(hwrote.inv hinv).view_defragment hz hrepacked.limit hrepacked.repacks hm1]
      · exact hnext
  | deleteData w x =>
    cases hseen
    obtain ⟨s', hw, hs⟩ := Option.bind_eq_some_iff.mp hs
    cases hs
    obtain ⟨st, lru, hdel, rfl⟩ := worker_some hw
    rcases DeleteData_cases hdel with ⟨hx, rfl⟩ | ⟨r, hx, rfl⟩
    · exact h.next_absent hx (.delete none)
    · refine ⟨_, ⟨?_, fun y hy => Function.update_of_ne hy none f⟩, h.deleted r⟩
      show Next _ (f x) .delete (Function.update f x none x)
      rw [Function.update_self]
      exact .delete (f x)
  | deleteRecord w x y =>
    cases hseen
    rw [step] at hs
    obtain ⟨st, lru, hdel, rfl⟩ := worker_some hs
    rcases DeleteRecord_reply hdel with ⟨hx, rfl⟩ | ⟨m, m', hm, hdel, hl⟩
    · exact h.next_absent hx (.deleteRecordAbsent y)
    · refine h.next_leaves hl ?_
      obtain ⟨m1, hm1, hb⟩ := Blman.deleteRecordByKey_spec (hd.manager_inv hm) y
      rw [hdel] at hm1
      cases hm1
      rw [h.found hm, hb.contents, RecordMap.view_update]
      exact .deleteRecord _ y
  | defragmentData w cfgs x =>
    cases hseen
    rw [step] at hs
    obtain ⟨st, lru, hdef, rfl⟩ := worker_some hs
    rcases DefragmentData_reply hdef with ⟨hx, rfl⟩ | ⟨m, m', hm, hdef, hl⟩
    · exact h.next_absent hx (.defragment none)
    · refine h.next_leaves hl ?_
      have hrepacked := hok m hm
      rw [h.found hm, (hd.manager_inv hm).view_defragment hz hrepacked.limit hrepacked.repacks hdef]
      exact .defragment _
  | _ => cases hseen

end Steps

/-- A state of the server, and what its clients see. -/
structure Shown (sh : Shared) (s : Sys) (f : UInt64 → Option RecordMap) : Prop where
  queue : s.QInv
  clean : s.store.Clean
  models : Models sh s.store f

theorem simulates (hz : GzipOk sh) :
    (life sh).Simulates (Faithful sh) (seen sh) (RecordStore.store sh.decompressGzip)
      (Shown sh) where
  hidden s a t f h hok hs hseen := by
    obtain ⟨⟨lost, hd⟩, -⟩ := h.queue
    exact ⟨h.queue.move hok.plain (step_move hs),
      clean_move h.clean h.queue hok.plain hok.remembers (step_move hs),
      models_hidden hd h.clean h.models hs hseen hok.plain⟩
  shown s a t f e h hok hs hseen := by
    obtain ⟨⟨lost, hd⟩, -⟩ := h.queue
    obtain ⟨f', hn, hmodels⟩ := models_seen hz hd h.models hok.repacked hs hseen
    exact ⟨f', hn, ⟨h.queue.move hok.plain (step_move hs),
      clean_move h.clean h.queue hok.plain hok.remembers (step_move hs), hmodels⟩⟩

/-- Whatever the workers and the disk thread do, and in whatever order, the clients see a
run of the store. -/
theorem store_refines (hz : GzipOk sh) {es : List (UInt64 × Event)} (hs : AfterInit sh s)
    {f : UInt64 → Option RecordMap} (hf : Models sh s.store f)
    (h : (life sh).Shows (Faithful sh) (seen sh) s es t) :
    ∃ f', (RecordStore.store sh.decompressGzip).Runs f es f' ∧ Models sh t.store f' := by
  obtain ⟨f', hr, hend⟩ := (simulates hz).runs h ⟨hs.qinv, hs.clean, hf⟩
  exact ⟨f', hr, hend.models⟩

/-- On empty files there is no X. -/
theorem Started.models (hs : Started s) : Models sh s.store fun _ => none := by
  obtain ⟨ReallocSize, store, hinit, rfl⟩ := hs
  obtain ⟨files, log, hst, -⟩ := Init_cases (FilesOk.empty sh) (List.Perm.refl _) hinit
  have hnone : ∀ x, store.m_dataIndexes.lookup x = none := by
    intro x
    rw [hst]
    rfl
  refine ⟨fun x => ?_, fun x g hg => ?_⟩
  · rw [← AList.lookup_isSome, hnone]
    exact iff_of_false Bool.false_ne_true fun hne => hne rfl
  · rw [recordsOf, managerOf_eq_managerIn, hnone] at hg
    cases hg

/-- The test of `Repacked` on a run without a defragmentation. -/
def repackedTest (sh : Shared) (s : Sys) : Action → Bool
  | .defragmentData _ _ _ => false
  | .writeData _ cfg _ x y pRecord => (s.store.managerOf sh x).all fun m =>
    (m.writeRecord sh cfg y pRecord).all fun p => !p.1.needDefrag
  | _ => true

theorem repacked_of_test (h : repackedTest sh s a = true) : s.Repacked sh a := by
  cases a with
  | writeData w cfg cfgs x y pRecord =>
    intro m hm p hp hdef
    have hnot := (Option.all_eq_true _ _).mp ((Option.all_eq_true _ _).mp h m hm) p hp
    rw [hdef] at hnot
    cases hnot
  | defragmentData w cfgs x => cases h
  | _ => exact trivial

/-- The test of `Faithful`. -/
def faithfulTest (sh : Shared) (s : Sys) (a : Action) : Bool :=
  a.plain && !decide (s.Forgets sh a) && repackedTest sh s a

theorem faithful_of_test (h : faithfulTest sh s a = true) : Faithful sh s a t := by
  rw [faithfulTest, Bool.and_eq_true, Bool.and_eq_true, Bool.not_eq_true',
    decide_eq_false_iff_not] at h
  exact ⟨h.1.1, h.1.2, repacked_of_test h.2⟩

/-- What is seen of a run from empty files, if it passes a test. -/
theorem exists_shown (M : Machine Sys Action) {ok : Sys → Action → Sys → Prop}
    {test : Sys → Action → Bool}
    (htest : ∀ s a t, test s a = true → M.step s a = some t → ok s a t) {actions : List Action}
    {p : List (UInt64 × Event) × Sys → Bool}
    (h : (fresh.bind fun s => M.observe (seen sh) test s actions).any p = true) :
    ∃ s es t, Started s ∧ M.Shows ok (seen sh) s es t ∧ p (es, t) = true := by
  obtain ⟨⟨es, t⟩, ht, hp⟩ := (Option.any_eq_true _ _).mp h
  obtain ⟨s, hs, hrun⟩ := Option.bind_eq_some_iff.mp ht
  exact ⟨s, es, t, started_of_fresh hs, .of_observe htest hrun, hp⟩

/-- A record written, flushed and dropped from memory by one worker, and read by another. -/
theorem store_refines_evicted : ∃ s es t f', AfterInit Shared.plain s
    ∧ (life Shared.plain).Shows (Faithful Shared.plain) (seen Shared.plain) s es t
    ∧ (∃ e ∈ es, e.1 = 7 ∧ e.2.found = some [1, 2, 3])
    ∧ (RecordStore.store Shared.plain.decompressGzip).Runs (fun _ => none) es f'
    ∧ Models Shared.plain t.store f' := by
  have hrun : (fresh.bind fun s => (life Shared.plain).observe (seen Shared.plain)
      (faithfulTest Shared.plain) s
      [put 0 7 1, .beginProcess [], .getItems [7], .processItem ⟨4096, 64⟩, .endProcess,
        .checkMemory 0 0, .readRecord 1 7 1 []]).any
      (fun p => p.1.any fun e => decide (e.1 = 7 ∧ e.2.found = some [1, 2, 3])) = true := by
    decide +kernel
  have htest : ∀ s a t, faithfulTest Shared.plain s a = true →
      (life Shared.plain).step s a = some t → Faithful Shared.plain s a t :=
    fun _ _ _ h _ => faithful_of_test h
  obtain ⟨s, es, t, hs, hshows, hp⟩ := exists_shown _ htest hrun
  obtain ⟨e, he, hfound⟩ := List.any_eq_true.mp hp
  obtain ⟨f', hruns, hmodels⟩ :=
    store_refines Shared.gzipOk_plain (.empty s hs) hs.models hshows
  exact ⟨s, es, t, f', .empty s hs, hshows, ⟨e, he, of_decide_eq_true hfound⟩, hruns, hmodels⟩

end Sys

end TransDB
