/-
What is in memory and does not wait to be written is on disk.

`CheckMemory` drops a block manager when the flag of its X is clear, so a manager
with a clear flag must have the blocks of the data file. Every edit that changes
blocks queues the X, but for one: a write that is refused as older than the oldest
record can have removed records before, and its branch of `WriteData` does not call
`Queue`. `Forgets` is this case.
-/
import TransDB.SystemQueue

set_option autoImplicit false

namespace TransDB

open DiskWriter Storage

/-! ## A refused write -/

namespace Blman

variable {sh : Shared} {cfg : WriteCfg} {m m' : Blman} {recordkey : UInt64} {record : List UInt8}

/-- The write is refused after it has removed a record: the one it was to replace, or
some over the limit. -/
def Forgets (sh : Shared) (cfg : WriteCfg) (m : Blman) (recordkey : UInt64)
    (record : List UInt8) : Prop :=
  record.length ≤ MAX_RECORD_SIZE
    ∧ m.roomFor recordkey (compressRecord sh cfg record).length = false
    ∧ refusedBy cfg recordkey (m.indexAfterUpdate recordkey) = true
    ∧ (recordkey ∈ m.blockIndex ∨ evictedBy cfg recordkey (m.indexAfterUpdate recordkey) ≠ [])

instance : Decidable (m.Forgets sh cfg recordkey record) :=
  inferInstanceAs (Decidable (_ ∧ _ ∧ _ ∧ (_ ∨ _)))

theorem mem_of_evictedBy {k : UInt64}
    (h : k ∈ evictedBy cfg recordkey (m.indexAfterUpdate recordkey)) : k ∈ m.blockIndex := by
  rw [evictedBy] at h
  split at h
  · have hpre := evicted_prefix (fun i => cfg.RecordLimit (i + 1)) recordkey
      (AvlTable.inOrder (m.indexAfterUpdate recordkey)) 0
    have hin := AvlTable.mem_inOrder.mp (hpre.subset h)
    exact ((AList.mem_erase).mp hin).2
  · cases h

/-- A write that forgets is refused. -/
theorem Wrote.oldRecord_of_forgets {status : WriteStatus}
    (hw : m.Wrote sh cfg recordkey record status m') (hf : m.Forgets sh cfg recordkey record) :
    status.oldRecord = true ∧ status.failRecordTooBig = false := by
  obtain ⟨hsize, hroom, hold, -⟩ := hf
  cases hw with
  | tooBig hsize' => omega
  | updated _ _ _ hroom' _ =>
    rw [hroom] at hroom'
    cases hroom'
  | refused _ _ _ hst hsmall _ _ _ _ => exact ⟨hst, hsmall⟩
  | stored _ _ _ _ _ _ hold' _ _ _ _ _ =>
    rw [hold] at hold'
    cases hold'

/-- A refused write has changed the records if and only if it is one that forgets. -/
theorem Wrote.forgets_iff {status : WriteStatus} (h : m.Inv)
    (hw : m.Wrote sh cfg recordkey record status m') (hold : status.oldRecord = true) :
    m.Forgets sh cfg recordkey record ↔ m'.contents ≠ m.contents := by
  cases hw with
  | tooBig hsize => cases hold
  | updated _ hsize hkey hroom hm => cases hold
  | stored _ _ hsize hst hsmall hroom hold' hdefrag hinv hcontents hframe hcount =>
    rw [hst] at hold
    cases hold
  | refused _ _ hsize hst hsmall hroom hold' hsame hm =>
    have hgone : ∀ k, k = recordkey ∨ k ∈ evictedBy cfg recordkey (m.indexAfterUpdate recordkey) →
        m'.contents k = none := by
      intro k hk
      rw [hm.contents, RecordMap.removeKeys]
      split
      · rfl
      · rename_i hnot
        have hkey := hk.resolve_right hnot
        rw [hkey, Function.update_self]
    constructor
    · rintro ⟨-, -, -, hforgets⟩ heq
      have hex : ∃ k, k ∈ m.blockIndex ∧ m'.contents k = none := by
        rcases hforgets with hmem | hne
        · exact ⟨recordkey, hmem, hgone _ (Or.inl rfl)⟩
        · obtain ⟨k, hk⟩ := List.exists_mem_of_ne_nil _ hne
          exact ⟨k, mem_of_evictedBy hk, hgone k (Or.inr hk)⟩
      obtain ⟨k, hmem, hnone⟩ := hex
      rw [heq] at hnone
      exact h.contents_eq_none.mp hnone hmem
    · intro hne
      refine ⟨hsize, hroom, hold', ?_⟩
      by_contra hnot
      rw [not_or, not_not] at hnot
      exact hne (by rw [hsame hnot.1 hnot.2])

end Blman

/-- An edit that does not queue its X leaves the blocks as they are, or is a write that
forgets. -/
theorem Edit.write_kept {sh : Shared} {cfg : WriteCfg} {cfgs : ℕ → WriteCfg} {y : UInt64}
    {pRecord : List UInt8} {m : Blman} {status : WriteStatus} {e : Edit} (h : m.Inv)
    (he : Edit.write sh cfg cfgs y pRecord m = some (status, e)) (hq : e.queued = false) :
    m.Forgets sh cfg y pRecord ∨ e.after = m := by
  obtain ⟨m', hw, hcases⟩ := Edit.write_cases he
  have hwrote := Blman.writeRecord_cases h hw
  rcases hcases with ⟨hbig, rfl⟩ | ⟨hsmall, hold, rfl⟩ | ⟨-, -, -, hd⟩ | ⟨-, -, -, rfl⟩
  · refine Or.inr ?_
    cases hwrote with
    | tooBig _ => rfl
    | updated _ _ _ _ _ => cases hbig
    | refused _ _ _ _ hsmall _ _ _ _ =>
      rw [hsmall] at hbig
      cases hbig
    | stored _ _ _ _ hsmall _ _ _ _ _ _ _ =>
      rw [hsmall] at hbig
      cases hbig
  · cases hwrote with
    | tooBig _ => cases hold
    | updated _ _ _ _ _ => cases hold
    | refused _ _ hsize _ _ hroom hold' hsame _ =>
      by_cases hmem : y ∈ m.blockIndex
        ∨ Blman.evictedBy cfg y (m.indexAfterUpdate y) ≠ []
      · exact Or.inl ⟨hsize, hroom, hold', hmem⟩
      · rw [not_or, not_not] at hmem
        exact Or.inr (hsame hmem.1 hmem.2)
    | stored _ _ _ hst _ _ _ _ _ _ _ _ =>
      rw [hst] at hold
      cases hold
  · obtain ⟨m1, -, hd⟩ := Option.bind_eq_some_iff.mp hd
    cases hd
    cases hq
  · cases hq

/-- What `CheckBlockManager` leaves of the entry. -/
theorem Storage.CheckBlockManager_entry {sh : Shared} {st st' : Storage} {x : UInt64}
    {r r' : RecordIndex} {m : Blman} (h : st.CheckBlockManager sh x r = some (st', r', m)) :
    r' = { r with m_pBlockManager := some m } := by
  rw [CheckBlockManager] at h
  cases hmgr : r.m_pBlockManager with
  | some m0 =>
    rw [hmgr] at h
    cases h
    rw [← hmgr]
  | none =>
    rw [hmgr] at h
    by_cases hrel : r.relocateBlocks = true
    · rw [if_pos hrel] at h
      cases h
    · rw [if_neg hrel] at h
      obtain ⟨bs, -, h⟩ := Option.bind_eq_some_iff.mp h
      obtain ⟨m0, -, h⟩ := Option.bind_eq_some_iff.mp h
      cases h
      rfl

/-! ## The invariant -/

/-- A block manager in memory, with the flag of its X clear, has the blocks that are on
disk. -/
def Storage.Clean (st : Storage) : Prop :=
  ∀ x r m, st.m_dataIndexes.lookup x = some r → r.m_pBlockManager = some m →
    r.inDiskWriteQueue = false →
    st.files.data.fread r.m_recordStart r.m_blockCount = some m.blocks

/-- What a `WriteData` writes, and how. -/
def Action.writes : Action → Option (WriteCfg × UInt64 × UInt64 × List UInt8)
  | .writeData _ cfg _ x y pRecord => some (cfg, x, y, pRecord)
  | _ => none

namespace Sys

variable {sh : Shared}

/-- The action is a write that forgets, on an X that does not wait to be written. -/
def Forgets (sh : Shared) (s : Sys) (a : Action) : Prop :=
  ∃ v ∈ a.writes, ∃ r ∈ s.store.m_dataIndexes.lookup v.2.1, r.inDiskWriteQueue = false
    ∧ ∃ m ∈ s.store.managerOf sh v.2.1, m.Forgets sh v.1 v.2.2.1 v.2.2.2

instance (s : Sys) : DecidablePred (s.Forgets sh) :=
  fun _ => inferInstanceAs (Decidable (∃ _ ∈ _, ∃ _ ∈ _, _ ∧ ∃ _ ∈ _, _))

/-- The X whose flag is clear were there, with a clear flag, in another store. -/
def IdleIn (st0 st : Storage) : Prop :=
  ∀ x r, st.m_dataIndexes.lookup x = some r → r.inDiskWriteQueue = false →
    ∃ r0, st0.m_dataIndexes.lookup x = some r0 ∧ r0.inDiskWriteQueue = false

theorem IdleIn.effect {allowed : Allowed} {st0 st st' : Storage} (h : IdleIn st0 st)
    (he : Effect sh allowed st st') : IdleIn st0 st' := by
  intro x r' hx hf
  have hentry := he.entry hx
  cases hr : st.m_dataIndexes.lookup x with
  | none =>
    rw [hr] at hentry
    cases hentry with
    | create m blockCount hm => cases hf
  | some r =>
    rw [hr] at hentry
    refine h x r hr ?_
    cases hentry with
    | same _ => exact hf
    | load _ bs m hmgr hrel hread hm => exact hf
    | edit _ m e hm hok ha =>
      have hf' : (r.inDiskWriteQueue || e.queued) = false := hf
      exact (Bool.or_eq_false_iff.mp hf').1
    | evict _ m hm hidle => exact hidle

/-- After a start there is no manager. -/
theorem AfterInit.clean {s : Sys} (h : AfterInit sh s) : s.store.Clean := by
  obtain ⟨order, files, log, rfl, -, -⟩ := h.cases
  intro x r m hx hm
  rcases lookup_fillMap_some hx with hnone | ⟨e, -, -, rfl⟩
  · cases hnone
  · cases hm

/-- An effect keeps what is on disk and in memory the same. -/
theorem clean_effect {allowed : Allowed} {st st' : Storage} (h : st.Clean)
    (hok : ∀ x r, st.m_dataIndexes.lookup x = some r → EntryOk st.files.data r)
    (hkeep : ∀ x r m e, st.m_dataIndexes.lookup x = some r → r.inDiskWriteQueue = false →
      m.Inv → allowed.edit x m e → e.queued = false → e.after = m)
    (he : Effect sh allowed st st') : st'.Clean := by
  intro x r' m' hx hm' hf
  rw [he.sameDisk.files]
  have hentry := he.entry hx
  cases hr : st.m_dataIndexes.lookup x with
  | none =>
    rw [hr] at hentry
    cases hentry with
    | create m blockCount hm => cases hf
  | some r =>
    rw [hr] at hentry
    cases hentry with
    | same _ => exact h x _ m' hr hm' hf
    | load _ bs m hmgr hrel hread hm =>
      cases hm'
      obtain ⟨bs', hst, -⟩ := (hok x r hr).stored hrel
      have hbs : bs' = bs := by
        have hread' := hst.read
        rw [hread] at hread'
        exact (Option.some.inj hread').symm
      subst hbs
      rw [(Blman.create_some hst.sound hst.nonempty hst.count_lt hm).2]
      exact hread
    | edit _ m e hm hedit ha =>
      cases hm'
      have hf' : (r.inDiskWriteQueue || e.queued) = false := hf
      rw [Bool.or_eq_false_iff] at hf'
      rw [hkeep x r m e hr hf'.1 ((hok x r hr).manager m hm) ha hf'.2]
      exact h x r m hr hm hf'.1
    | evict _ m hm hidle => cases hm'

/-- The blocks an item leaves are those on disk, and no other X is touched. -/
theorem clean_item {cfg : DiskCfg} {st st' : Storage} {item : WriteInfo}
    {items : List WriteInfo} {toAdd lost : List Region} {r r' : RecordIndex} {m : Blman}
    {ws : List FileWrite} {size : Int} {free : FreeSpaceBlockMap} {p : Int} {index : IndexBlock}
    {file : IndexFile} {log : List FileWrite} (h : st.Clean) (hq : QueueInv st (item :: items))
    (hd : DataInv st [] toAdd lost)
    (hi : ItemDone sh cfg st item.m_key r m (others st item.m_key [] toAdd lost) st' r' ws size
      free p index file log) : st'.Clean := by
  have hinv := (hd.entry item.m_key r hi.lookup).manager m hi.manager
  have hstored := hi.stored hinv
  have honly := hi.onlyIn
  obtain ⟨offset, number, hr'⟩ := hi.entry
  have hlive : st'.m_dataIndexes
      = st.m_dataIndexes.insert item.m_key (clearQueued st item.m_key r') := by
    rw [hi.store]
    rfl
  intro y ry my hy hmy hf
  rw [hlive] at hy
  rcases Effect.lookup_insert_cases hy with ⟨rfl, rfl⟩ | ⟨hne, hold⟩
  · have hplace := ItemDone.clearQueued_place st item.m_key r'
    have hmgr : (clearQueued st item.m_key r').m_pBlockManager = some m.clearDirtyFlags := by
      rw [clearQueued, hr']
      split
      all_goals rfl
    rw [hmgr] at hmy
    cases hmy
    rw [hplace.start, hplace.count]
    exact hstored.read
  · have hrel : ry.relocateBlocks = false := hq.not_relocating hold hf
    exact honly.fread (h y ry my hold hmy hf) (hi.apart (hd.mem_others hne hold hrel))

theorem clean_move {s t : Sys} {a : Action} (h : s.store.Clean) (hinv : s.QInv)
    (ha : a.plain = true) (hok : ¬ s.Forgets sh a) (hm : Move sh s a t) : t.store.Clean := by
  obtain ⟨⟨lost, hd⟩, hq⟩ := hinv
  cases hm with
  | worker store lru removing he hr =>
    have hgoal := he.invariant (fun st =>
      (∃ lost, DataInv st s.disk.deleted s.disk.toAdd lost) ∧ IdleIn s.store st ∧ st.Clean) ?_
      ⟨⟨lost, hd⟩, fun x r hx hf => ⟨r, hx, hf⟩, h⟩
    · exact hgoal.2.2
    rintro st st' ⟨⟨lost1, hd1⟩, hidle, hclean⟩ he1
    refine ⟨DataInv.effects hd1 (.single he1), hidle.effect he1,
      clean_effect hclean hd1.entry ?_ he1⟩
    intro x r m e hx hf hminv hedit hqueued
    cases hedit with
    | write w cfg cfgs _ y pRecord _ status _ hmgr hwrite =>
      refine (Edit.write_kept hminv hwrite hqueued).resolve_left fun hforgets => hok ?_
      obtain ⟨r0, hr0, hf0⟩ := hidle x r hx hf
      exact ⟨_, rfl, r0, hr0, hf0, m, hmgr, hforgets⟩
    | delete w _ y _ _ hmgr hdel =>
      obtain ⟨m1, -, hdel⟩ := Option.bind_eq_some_iff.mp hdel
      cases hdel
      cases hqueued
    | defragment w cfgs _ _ _ hmgr hdef =>
      obtain ⟨m1, -, hdef⟩ := Option.bind_eq_some_iff.mp hdef
      cases hdef
      cases hqueued
  | remove x ha' hx => exact h
  | beginProcess order rs store hdisk hg =>
    obtain ⟨-, -, rfl⟩ := getDeleted_cases hg
    exact h
  | deleteItem cacheSize r rest store hdisk hi =>
    obtain ⟨index, file, log, erased, rfl⟩ := deleteItem_cases hi
    rw [Storage.foldl_addFreeSpace]
    exact h
  | getItems order items store hdisk hg =>
    obtain ⟨-, -, rfl⟩ := getItems_cases hg
    exact h
  | processItem cfg item items toAdd toAdd' store hdisk hp =>
    have hitem := hd.item hdisk hp
    rw [DInv, hdisk] at hd
    rw [hdisk] at hq
    rcases hitem with ⟨-, rfl, rfl⟩ | ⟨r, m, r', ws, size, free, p, index, file, log, hi, rfl⟩
    · exact h
    · exact clean_item h hq hd hi
  | addFreeSpace r rest hdisk => exact h
  | endProcess hdisk => exact h
  | defragmentFreeSpace order ha' hdisk horder =>
    subst ha'
    cases ha
  | restart ReallocSize forceStartup order store ha' hdisk horder hi =>
    subst ha'
    cases ha

end Sys

/-! ## Reading after an eviction -/

/-- Every read of `x` returns in one store what it returns in the other, whatever the
`LRUCache` of the worker. -/
structure SameReads (sh : Shared) (st st' : Storage) (x : UInt64) : Prop where
  record : ∀ lru y pData, (st'.ReadData sh lru x y pData).map Prod.fst
    = (st.ReadData sh lru x y pData).map Prod.fst
  all : ∀ lru pData, (st'.ReadDataAll sh lru x pData).map Prod.fst
    = (st.ReadDataAll sh lru x pData).map Prod.fst
  keys : ∀ lru, (st'.GetAllY sh lru x).map Prod.fst = (st.GetAllY sh lru x).map Prod.fst

section Reads

variable {sh : Shared} {st : Storage} {x : UInt64} {r : RecordIndex} {β : Type}

/-- A read of an X whose manager is in memory. -/
theorem withBlockManager_resident {m : Blman} (hx : st.m_dataIndexes.lookup x = some r)
    (hm : r.m_pBlockManager = some m) (lru : LRUCache) (read : Blman → Option β) :
    (st.withBlockManager sh lru x read).map Prod.fst
      = (lru.put x).bind fun _ => (read m).map some := by
  rw [withBlockManager, hx]
  dsimp only
  rw [CheckBlockManager, hm]
  cases lru.put x with
  | none => rfl
  | some lru' =>
    cases hread : read m with
    | none =>
      simp only [Option.bind_eq_bind, Option.bind_some, hread]
      rfl
    | some out =>
      simp only [Option.bind_eq_bind, Option.bind_some, hread]
      rfl

/-- A read of an X whose manager has to be loaded. -/
theorem withBlockManager_load {bs : List Block} (hx : st.m_dataIndexes.lookup x = some r)
    (hm : r.m_pBlockManager = none) (hrel : r.relocateBlocks = false)
    (hread : st.files.data.fread r.m_recordStart r.m_blockCount = some bs) (lru : LRUCache)
    (read : Blman → Option β) :
    (st.withBlockManager sh lru x read).map Prod.fst
      = (lru.put x).bind fun _ =>
        (Blman.create (some bs)).bind fun m => (read m).map some := by
  rw [withBlockManager, hx]
  dsimp only
  rw [CheckBlockManager, hm]
  dsimp only
  rw [if_neg (by rw [hrel]; exact Bool.false_ne_true), hread]
  cases lru.put x with
  | none => rfl
  | some lru' =>
    simp only [Option.bind_eq_bind, Option.bind_some]
    cases hc : Blman.create (some bs) with
    | none => rfl
    | some m =>
      simp only [Option.pure_def, Option.bind_some]
      cases hout : read m with
      | none => rfl
      | some out => rfl

/-- A block that holds as many records as RDFs fit into it cannot be loaded. -/
theorem Blman.create_isSome {m : Blman} (h : m.Inv) :
    (Blman.create (some m.blocks)).isSome = true ↔ ∀ b ∈ m.blocks, b.Scannable := by
  constructor
  · intro hsome
    rw [Blman.create] at hsome
    obtain ⟨index, hindex⟩ : ∃ index, Blman.indexBlocks 0 m.blocks ∅ = some index := by
      rcases hi : Blman.indexBlocks 0 m.blocks ∅ with _ | index
      · rw [hi] at hsome
        cases hsome
      · exact ⟨index, rfl⟩
    exact Blman.indexBlocks_scannable h.valid 0 ∅ index hindex
  · intro hscan
    obtain ⟨m', hm', -, -⟩ := Blman.create_spec h.sound h.nonempty h.count_lt hscan
    rw [hm']
    rfl

/-- An X with its blocks on disk can be evicted unnoticed, provided that it can be
loaded again. -/
theorem sameReads_evict {m : Blman} (hx : st.m_dataIndexes.lookup x = some r)
    (hm : r.m_pBlockManager = some m) (hinv : m.Inv) (hrel : r.relocateBlocks = false)
    (hread : st.files.data.fread r.m_recordStart r.m_blockCount = some m.blocks) :
    SameReads sh st (st.evict sh x r) x ↔ ∀ b ∈ m.blocks, b.Scannable := by
  have hstore : st.evict sh x r = { st.setIndex x { r with m_pBlockManager := none } with
      m_memoryUsed := st.m_memoryUsed - memoryUsage sh m } := evict_some hm
  have hx' : (st.evict sh x r).m_dataIndexes.lookup x
      = some { r with m_pBlockManager := none } := by
    rw [hstore]
    exact AList.lookup_insert _
  have hread' : (st.evict sh x r).files.data.fread r.m_recordStart r.m_blockCount
      = some m.blocks := by
    rw [hstore]
    exact hread
  constructor
  · intro hsame
    rw [← Blman.create_isSome hinv]
    have hkeys := hsame.keys LRUCache.empty
    rw [GetAllY, GetAllY, withBlockManager_resident hx hm,
      withBlockManager_load hx' rfl hrel hread'] at hkeys
    obtain ⟨lru, hput, -⟩ := LRUCache.IsList.empty.put x
    rw [hput, Option.bind_some, Option.bind_some] at hkeys
    cases hc : Blman.create (some m.blocks) with
    | none =>
      rw [hc] at hkeys
      cases hkeys
    | some m' => rfl
  · intro hscan
    obtain ⟨m', hm', hinv', hblocks⟩ :=
      Blman.create_spec hinv.sound hinv.nonempty hinv.count_lt hscan
    have hsame := fun y out => hinv.read_eq hinv' hblocks sh y out
    refine ⟨fun lru y pData => ?_, fun lru pData => ?_, fun lru => ?_⟩
    · rw [ReadData, ReadData, withBlockManager_resident hx hm,
        withBlockManager_load hx' rfl hrel hread', hm', Option.bind_some, (hsame y pData).1]
    · rw [ReadDataAll, ReadDataAll, withBlockManager_resident hx hm,
        withBlockManager_load hx' rfl hrel hread', hm', Option.bind_some, (hsame 0 pData).2.1]
    · rw [GetAllY, GetAllY, withBlockManager_resident hx hm,
        withBlockManager_load hx' rfl hrel hread', hm', Option.bind_some, (hsame 0 []).2.2]

end Reads

namespace Sys

variable {sh : Shared}

/-- What an eviction relies on: the blocks in memory of an X that does not wait to be
written are on disk, and it is read after an eviction as before. The latter needs blocks
with fewer than 409 records, since a block of 409 empty ones stops the load. -/
structure Transparent (sh : Shared) (s : Sys) : Prop where
  clean : s.store.Clean
  reload : ∀ x r m, s.store.m_dataIndexes.lookup x = some r → r.m_pBlockManager = some m →
    r.inDiskWriteQueue = false →
    (SameReads sh s.store (s.store.evict sh x r) x ↔ ∀ b ∈ m.blocks, b.Scannable)

/-- The steps of the runs in which nothing is forgotten. -/
def Remembers (sh : Shared) (s : Sys) (a : Action) (_ : Sys) : Prop :=
  a.plain = true ∧ ¬ s.Forgets sh a

instance (s : Sys) (a : Action) (t : Sys) : Decidable (Remembers sh s a t) :=
  inferInstanceAs (Decidable (_ ∧ _))

/-- In every run without a write that forgets, an eviction is not noticed. -/
theorem eviction_transparent {s : Sys} (h : (life sh).Reach (Remembers sh) s) :
    s.Transparent sh := by
  have hinv := h.invariant (fun s => s.QInv ∧ s.store.Clean) ?_ ?_
  · obtain ⟨⟨⟨lost, hd⟩, hq⟩, hclean⟩ := hinv
    refine ⟨hclean, fun x r m hx hm hf => ?_⟩
    have hrel : r.relocateBlocks = false := hq.not_relocating hx hf
    exact sameReads_evict hx hm ((hd.entry x r hx).manager m hm) hrel (hclean x r m hx hm hf)
  · intro s hs
    exact ⟨AfterInit.qinv hs, AfterInit.clean hs⟩
  · intro s a t hs hok hstep
    have hm := step_move hstep
    exact ⟨hs.1.move hok.1 hm, clean_move hs.2 hs.1 hok.1 hok.2 hm⟩

/-- The condition is exact: after a write that forgets, a manager with a clear flag
differs from what is on disk. -/
theorem forgets_unclean {s t : Sys} {a : Action} (h : s.store.Clean) (hinv : s.QInv)
    (hf : s.Forgets sh a) (hstep : s.step sh a = some t) : ¬ t.store.Clean := by
  obtain ⟨⟨lost, hd⟩, -⟩ := hinv
  obtain ⟨v, hv, r, hr, hidle, m, hm, hforgets⟩ := hf
  cases a with
  | writeData w cfg cfgs x y pRecord =>
    cases hv
    have hx : s.store.m_dataIndexes.lookup x = some r := hr
    rw [step] at hstep
    obtain ⟨store, lru, hworker, rfl⟩ := worker_some hstep
    obtain ⟨⟨status, store', lru'⟩, hwrite, heq⟩ := Option.map_eq_some_iff.mp hworker
    cases heq
    obtain ⟨lru1, -, hwrite⟩ := Option.bind_eq_some_iff.mp hwrite
    rw [hx] at hwrite
    obtain ⟨⟨st1, r1, m1⟩, hcheck, hwrite⟩ := Option.bind_eq_some_iff.mp hwrite
    obtain ⟨⟨status', m'⟩, hrecord, hwrite⟩ := Option.bind_eq_some_iff.mp hwrite
    obtain ⟨st2, hafter, hwrite⟩ := Option.bind_eq_some_iff.mp hwrite
    cases hwrite
    have hm1 : m1 = m := by
      have heq : s.store.managerOf sh x = some m1 := managerOf_eq hx hcheck
      rw [Option.mem_def.mp hm] at heq
      exact (Option.some.inj heq).symm
    subst hm1
    obtain rfl := CheckBlockManager_entry hcheck
    obtain ⟨hload, hx1, -⟩ :
        Effects sh ⟨fun _ _ _ => False, fun _ => False⟩ s.store st1 ∧ _ :=
      CheckBlockManager_cases hx hcheck
    -- the manager has the blocks on disk when the write begins
    have hbefore := hload.invariant
      (fun st => (∃ lost, DataInv st s.disk.deleted s.disk.toAdd lost) ∧ st.Clean) ?_
      ⟨⟨lost, hd⟩, h⟩
    swap
    · rintro st st' ⟨⟨lost1, hd1⟩, hclean1⟩ he
      refine ⟨DataInv.effects hd1 (.single he), clean_effect hclean1 hd1.entry ?_ he⟩
      intro _ _ _ _ _ _ _ hfalse
      cases hfalse
    obtain ⟨⟨lost1, hd1⟩, hclean1⟩ := hbefore
    have hread := hclean1 x _ m1 hx1 rfl hidle
    have hminv := (hd1.entry x _ hx1).manager m1 rfl
    have hwrote := Blman.writeRecord_cases hminv hrecord
    obtain ⟨hold, hsmall⟩ := hwrote.oldRecord_of_forgets hforgets
    obtain ⟨e, he, rfl⟩ := afterWrite_eq hrecord hafter
    -- the write has changed them, and does not queue the X
    obtain ⟨m2, hrecord2, hcases⟩ := Edit.write_cases he
    rw [hrecord] at hrecord2
    cases hrecord2
    have hedit : e = ⟨m', Edit.usageChange sh m1 m', false, false⟩ := by
      rcases hcases with ⟨hbig, -⟩ | ⟨-, -, rfl⟩ | ⟨-, hnew, -⟩ | ⟨-, hnew, -⟩
      · rw [hsmall] at hbig
        cases hbig
      · rfl
      · rw [hold] at hnew
        cases hnew
      · rw [hold] at hnew
        cases hnew
    intro hclean
    have hentry : (e.apply st1 x { r with m_pBlockManager := some m1 }).m_dataIndexes.lookup x
        = some { r with m_pBlockManager := some m' } := by
      rw [Edit.apply_dataIndexes, AList.lookup_insert, hedit]
      simp only [Bool.or_false]
    have hread' := hclean x _ m' hentry rfl hidle
    rw [Edit.apply_sameDisk.files, hread] at hread'
    refine (hwrote.forgets_iff hminv hold).mp hforgets ?_
    rw [Blman.contents, Blman.contents, Option.some.inj hread']
  | _ => cases hv

/-- An X that has been flushed and is still in memory. -/
theorem eviction_transparent_flushed : ∃ s, (life Shared.plain).Reach (Remembers Shared.plain) s
    ∧ (∃ r, s.store.m_dataIndexes.lookup 7 = some r
      ∧ (r.m_pBlockManager.isSome && !r.inDiskWriteQueue) = true)
    ∧ s.Transparent Shared.plain := by
  have hrun : (fresh.bind fun s => (life Shared.plain).run
      (fun s a => decide (Remembers Shared.plain s a s)) s
      [put 0 7 1, .beginProcess [],
        .getItems [7], .processItem ⟨4096, 64⟩, .endProcess]).any
      (fun s => (s.store.m_dataIndexes.lookup 7).any
        fun r => r.m_pBlockManager.isSome && !r.inDiskWriteQueue) = true := by
    decide +kernel
  have hok : ∀ (s : Sys) (a : Action) (t : Sys), decide (Remembers Shared.plain s a s) = true →
      Remembers Shared.plain s a t := by
    intro s a t h
    exact of_decide_eq_true h
  obtain ⟨s, t, hs, hsteps, ht⟩ := exists_run _ hok hrun
  have hreach := (Machine.Reach.init s (AfterInit.empty s hs)).steps hsteps
  exact ⟨t, hreach, (Option.any_eq_true _ _).mp ht, eviction_transparent hreach⟩

/-- The X has the records 1 and 3, and both are on disk. With a limit of 1, the write of a
record 2 removes the first and is refused because of the second: the record 1 is on disk,
but not in memory. -/
theorem forgotten_by_refused : ∃ s, (life Shared.plain).Reach (fun _ a _ => a.plain = true) s
    ∧ ¬ s.Transparent Shared.plain := by
  have hrun : (fresh.bind fun s => (life Shared.plain).run (fun _ a => a.plain) s
      [put 0 7 1,
        put 0 7 3, .beginProcess [],
        .getItems [7], .processItem ⟨4096, 64⟩, .endProcess,
        .writeData 0 (plainCfg 1 5) (fun _ => plainCfg 1 5) 7 2 [1, 2, 3]]).any
      (fun s => (s.store.m_dataIndexes.lookup 7).any fun r => !r.inDiskWriteQueue
        && r.m_pBlockManager.any fun m =>
          (s.store.files.data.fread r.m_recordStart r.m_blockCount).map (List.map Block.bytes)
            != some (m.blocks.map Block.bytes)) = true := by
    decide +kernel
  obtain ⟨s, t, hs, hsteps, ht⟩ :=
    exists_run _ (fun (_ : Sys) (a : Action) (_ : Sys) (h : a.plain = true) => h) hrun
  refine ⟨t, (Machine.Reach.init s (AfterInit.empty s hs)).steps hsteps, fun hsame => ?_⟩
  obtain ⟨r, hr, ht⟩ := (Option.any_eq_true _ _).mp ht
  rw [Bool.and_eq_true, Bool.not_eq_true'] at ht
  obtain ⟨m, hm, hne⟩ := (Option.any_eq_true _ _).mp ht.2
  rw [hsame.clean 7 r m hr hm ht.1, Option.map_some, bne_self_eq_false] at hne
  cases hne

end Sys

end TransDB
