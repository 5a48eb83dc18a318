/-
A flush comes to its end, and changes nothing that an X says.

With room in the index file no part of `Process` fails: the blocks find a place, because
the data file grows, and the record finds a slot. Of an X it writes, a flush changes where
the blocks are and clears their dirty flags; whoever reads an X gets what he got before.
-/
import TransDB.SystemEvict
import TransDB.SystemProcess

set_option autoImplicit false

namespace TransDB

open DiskWriter Storage

/-! ## What an X says -/

/-- The block manager of an entry, or the one that would be loaded. -/
def RecordIndex.managerIn (f : DataFile) (r : RecordIndex) : Option Blman :=
  match r.m_pBlockManager with
  | some m => some m
  | none =>
    if r.relocateBlocks then none
    else (f.fread r.m_recordStart r.m_blockCount).bind fun bs => Blman.create (some bs)

theorem RecordIndex.managerIn_resident {r : RecordIndex} {m : Blman} (f : DataFile)
    (hm : r.m_pBlockManager = some m) : r.managerIn f = some m := by
  rw [managerIn, hm]

theorem RecordIndex.managerIn_load {r : RecordIndex} {f : DataFile} {bs : List Block}
    (hm : r.m_pBlockManager = none) (hrel : r.relocateBlocks = false)
    (hread : f.fread r.m_recordStart r.m_blockCount = some bs) :
    r.managerIn f = Blman.create (some bs) := by
  rw [managerIn, hm]
  dsimp only
  rw [if_neg (by rw [hrel]; exact Bool.false_ne_true), hread, Option.bind_some]

namespace Storage

variable {sh : Shared} {st : Storage} {x : UInt64}

theorem managerOf_eq_managerIn :
    st.managerOf sh x = (st.m_dataIndexes.lookup x).bind (RecordIndex.managerIn st.files.data) := by
  rw [managerOf]
  cases st.m_dataIndexes.lookup x with
  | none => rfl
  | some r =>
    rw [Option.bind_eq_bind, Option.bind_some, Option.bind_some, CheckBlockManager,
      RecordIndex.managerIn]
    cases r.m_pBlockManager with
    | some m => rfl
    | none =>
      dsimp only
      by_cases hrel : r.relocateBlocks = true
      · rw [if_pos hrel, if_pos hrel]
        rfl
      · rw [if_neg hrel, if_neg hrel]
        cases st.files.data.fread r.m_recordStart r.m_blockCount with
        | none => rfl
        | some bs =>
          simp only [Option.bind_eq_bind, Option.bind_some]
          cases Blman.create (some bs) with
          | none => rfl
          | some m => rfl

/-- The records of an X, by their keys. -/
def recordsOf (sh : Shared) (self : Storage) (x : UInt64) : Option RecordMap :=
  (self.managerOf sh x).map Blman.contents

/-- The blocks that X has in memory can be loaded: none has as many records as RDFs fit
into it. -/
def Loadable (self : Storage) (x : UInt64) : Prop :=
  ∀ r m, self.m_dataIndexes.lookup x = some r → r.m_pBlockManager = some m →
    ∀ b ∈ m.blocks, b.Scannable

theorem loadable_of_none {r : RecordIndex} (hx : st.m_dataIndexes.lookup x = some r)
    (hm : r.m_pBlockManager = none) : st.Loadable x := by
  intro r' m hr hm'
  rw [hx] at hr
  cases hr
  rw [hm] at hm'
  cases hm'

theorem loadable_resident {r : RecordIndex} {m : Blman}
    (hx : st.m_dataIndexes.lookup x = some r) (hm : r.m_pBlockManager = some m) :
    st.Loadable x ↔ ∀ b ∈ m.blocks, b.Scannable := by
  constructor
  · intro h
    exact h r m hx hm
  · intro h r' m' hr hm'
    rw [hx] at hr
    cases hr
    rw [hm] at hm'
    cases hm'
    exact h

end Storage

/-- What a flush keeps of an X. -/
structure SameX (sh : Shared) (st st' : Storage) (x : UInt64) : Prop where
  key : x ∈ st'.m_dataIndexes ↔ x ∈ st.m_dataIndexes
  records : st'.recordsOf sh x = st.recordsOf sh x
  loadable : st'.Loadable x ↔ st.Loadable x

namespace SameX

variable {sh : Shared} {st st' st'' : Storage} {x : UInt64}

theorem trans (h : SameX sh st st' x) (h' : SameX sh st' st'' x) : SameX sh st st'' x where
  key := h'.key.trans h.key
  records := h'.records.trans h.records
  loadable := h'.loadable.trans h.loadable

/-- Only the entry and the data file matter. -/
theorem of_lookup (hx : st'.m_dataIndexes.lookup x = st.m_dataIndexes.lookup x)
    (hread : ∀ r, st.m_dataIndexes.lookup x = some r →
      r.managerIn st'.files.data = r.managerIn st.files.data) : SameX sh st st' x where
  key := by rw [← AList.lookup_isSome, ← AList.lookup_isSome, hx]
  records := by
    rw [recordsOf, recordsOf, managerOf_eq_managerIn, managerOf_eq_managerIn, hx]
    cases hr : st.m_dataIndexes.lookup x with
    | none => rfl
    | some r => rw [Option.bind_some, Option.bind_some, hread r hr]
  loadable := by rw [Loadable, Loadable, hx]

theorem of_eq (hlive : st'.m_dataIndexes = st.m_dataIndexes)
    (hdata : st'.files.data = st.files.data) : SameX sh st st' x :=
  of_lookup (by rw [hlive]) fun r _ => by rw [hdata]

end SameX

/-- The flags are no part of the records. -/
theorem Blman.Inv.clearDirtyFlags_scannable {m : Blman} (h : m.Inv) :
    (∀ b ∈ m.clearDirtyFlags.blocks, b.Scannable) ↔ ∀ b ∈ m.blocks, b.Scannable := by
  have hb : ∀ b ∈ m.blocks, (b.clearDirty.Scannable ↔ b.Scannable) := by
    intro b hb
    rw [Block.Scannable, Block.Scannable, (h.valid b hb).clearDirty_records]
  constructor
  · intro hscan b hmem
    exact (hb b hmem).mp (hscan b.clearDirty (List.mem_map_of_mem hmem))
  · intro hscan c hc
    obtain ⟨b, hmem, rfl⟩ := List.mem_map.mp hc
    exact (hb b hmem).mpr (hscan b hmem)

/-- Loaded again, the blocks have the same records, if they can be loaded. -/
theorem Blman.Inv.create_contents_iff {m : Blman} (h : m.Inv) :
    (Blman.create (some m.blocks)).map Blman.contents = some m.contents
      ↔ ∀ b ∈ m.blocks, b.Scannable := by
  rw [← Blman.create_isSome h]
  cases hc : Blman.create (some m.blocks) with
  | none =>
    refine iff_of_false (fun heq => ?_) (fun hsome => ?_)
    · cases heq
    · cases hsome
  | some m' =>
    have hblocks := (Blman.create_some h.sound h.nonempty h.count_lt hc).2
    refine iff_of_true ?_ rfl
    rw [Option.map_some, Blman.contents, Blman.contents, hblocks]

/-- An item changes nothing that an X says: its own blocks have other flags, and those of
the others are not touched. -/
theorem ItemDone.sameX {sh : Shared} {cfg : DiskCfg} {st st' : Storage} {x : UInt64}
    {r r' : RecordIndex} {m : Blman} {toAdd lost : List Region} {ws : List FileWrite} {size : Int}
    {free : FreeSpaceBlockMap} {p : Int} {index : IndexBlock} {file : IndexFile}
    {log : List FileWrite} (hd : DataInv st [] toAdd lost)
    (hi : ItemDone sh cfg st x r m (others st x [] toAdd lost) st' r' ws size free p index file log)
    (y : UInt64) : SameX sh st st' y := by
  have hinv := (hd.entry x r hi.lookup).manager m hi.manager
  have hlive : st'.m_dataIndexes = st.m_dataIndexes.insert x (clearQueued st x r') := by
    rw [hi.store]
    rfl
  by_cases hyx : y = x
  · subst hyx
    have hy : st'.m_dataIndexes.lookup y = some (clearQueued st y r') := by
      rw [hlive]
      exact AList.lookup_insert _
    have hmgr : (clearQueued st y r').m_pBlockManager = some m.clearDirtyFlags := by
      obtain ⟨offset, number, hr'⟩ := hi.entry
      rw [clearQueued, hr']
      split
      all_goals rfl
    refine ⟨?_, ?_, ?_⟩
    · rw [← AList.lookup_isSome, ← AList.lookup_isSome, hy, hi.lookup]
      exact Iff.rfl
    · rw [recordsOf, recordsOf, managerOf_eq_managerIn, managerOf_eq_managerIn, hy, hi.lookup,
        Option.bind_some, Option.bind_some, RecordIndex.managerIn_resident _ hmgr,
        RecordIndex.managerIn_resident _ hi.manager, Option.map_some, Option.map_some,
        hinv.clearDirtyFlags_contents]
    · rw [loadable_resident hy hmgr, loadable_resident hi.lookup hi.manager]
      exact hinv.clearDirtyFlags_scannable
  · refine SameX.of_lookup ?_ ?_
    · rw [hlive]
      exact AList.lookup_insert_ne hyx
    · intro ry hry
      cases hmgr : ry.m_pBlockManager with
      | some my =>
        rw [RecordIndex.managerIn_resident _ hmgr, RecordIndex.managerIn_resident _ hmgr]
      | none =>
        by_cases hrel : ry.relocateBlocks = true
        · rw [RecordIndex.managerIn, RecordIndex.managerIn, hmgr]
          dsimp only
          rw [if_pos hrel, if_pos hrel]
        · rw [Bool.not_eq_true] at hrel
          obtain ⟨bs, hst, -⟩ := (hd.entry y ry hry).stored hrel
          rw [RecordIndex.managerIn_load hmgr hrel hst.read, RecordIndex.managerIn_load hmgr hrel
            (hi.onlyIn.fread hst.read (hi.apart (hd.mem_others hyx hry hrel)))]

namespace Sys

variable {sh : Shared}

theorem sameX_move {s t : Sys} {a : Action} (hinv : ∃ lost, s.DInv lost) (ha : a.disk = true)
    (hm : Move sh s a t) (x : UInt64) : SameX sh s.store t.store x := by
  obtain ⟨lost, hd⟩ := hinv
  cases hm with
  | worker store lru removing he hr hw =>
    rw [ha] at hw
    cases hw
  | remove y ha' hx =>
    subst ha'
    cases ha
  | beginProcess order rs store hdisk hg =>
    obtain ⟨-, -, rfl⟩ := getDeleted_cases hg
    exact SameX.of_eq rfl rfl
  | deleteItem cacheSize r rest store hdisk hi =>
    obtain ⟨index, file, log, erased, rfl⟩ := deleteItem_cases hi
    rw [Storage.foldl_addFreeSpace]
    exact SameX.of_eq rfl rfl
  | getItems order items store hdisk hg =>
    obtain ⟨-, -, rfl⟩ := getItems_cases hg
    exact SameX.of_eq rfl rfl
  | processItem cfg item items toAdd toAdd' store hdisk hp =>
    have hitem := hd.item hdisk hp
    rw [DInv, hdisk] at hd
    rcases hitem with ⟨-, rfl, rfl⟩ | ⟨r, m, r', ws, size, free, p, index, file, log, hi, rfl⟩
    · exact SameX.of_eq rfl rfl
    · exact ItemDone.sameX hd hi x
  | addFreeSpace r rest hdisk => exact SameX.of_eq rfl rfl
  | endProcess hdisk => exact SameX.of_eq rfl rfl
  | defragmentFreeSpace order ha' hdisk horder =>
    subst ha'
    cases ha
  | restart ReallocSize forceStartup order store ha' hdisk horder hi =>
    subst ha'
    cases ha

/-- A flush changes nothing that an X says. -/
theorem process_sameX {s : Sys} {args : ProcessArgs} {st : Storage} (hd : s.disk = .idle)
    (hinv : ∃ lost, s.DInv lost) (h : Process sh args s.store = some st) (x : UInt64) :
    SameX sh s.store st x := by
  have hend := (process_steps hd h).invariant
    (fun u => (∃ lost, u.DInv lost) ∧ SameX sh s.store u.store x) ?_
    ⟨hinv, SameX.of_eq rfl rfl⟩
  · exact hend.2
  · rintro u a v ⟨⟨lost, hu⟩, hsame⟩ hok hstep
    have hm := step_move hstep
    exact ⟨hu.move (Action.disk_plain hok) hm, hsame.trans (sameX_move ⟨lost, hu⟩ hok hm x)⟩

end Sys

/-! ## No part fails -/

theorem IndexWrites.length_le_succ {before after : IndexFile} {iw : List FileWrite}
    (h : IndexWrites before iw after) : after.length ≤ before.length + 1 := by
  rcases h with ⟨-, rfl⟩ | ⟨n, b, -, rfl⟩
  · exact Nat.le_succ _
  · rw [IndexFile.putBlock]
    split
    · rw [List.length_set]
      exact Nat.le_succ _
    · rw [List.length_append]
      exact Nat.le_refl _

/-- An item can be written, and adds one block to the index file at most. -/
theorem StorageInv.processItem {sh : Shared} {st : Storage} {deleting : List RecordIndex}
    {toAdd : List Region} {lost : List ((ℕ × ℕ) × Region)}
    (h : StorageInv sh st deleting toAdd lost) (hlt : st.files.index.length < 2 ^ 20)
    {item : WriteInfo} (hmgr : ∀ r, st.m_dataIndexes.lookup item.m_key = some r →
      r.m_pBlockManager ≠ none) (cfg : DiskCfg) :
    ∃ st' toAdd', DiskWriter.processItem sh cfg st toAdd item = some (st', toAdd')
      ∧ st'.files.index.length ≤ st.files.index.length + 1 := by
  rw [DiskWriter.processItem]
  cases hx : st.m_dataIndexes.lookup item.m_key with
  | none => exact ⟨st, toAdd, rfl, Nat.le_succ _⟩
  | some r =>
    obtain ⟨m, hm⟩ := Option.ne_none_iff_exists'.mp (hmgr r hx)
    obtain ⟨ws, size, free, p, hw, hplaced⟩ := writeBlocks_spec cfg.ReallocSize h.data.size_eq
      h.data.size_nonneg h.data.noEmpty (h.data.tiles_others hx) (h.data.entry _ r hx) hm
    obtain ⟨index, file, iw, slot, r', rest, hu, -, hiw, -⟩ :=
      h.updateIndex_item hlt hx hm hplaced cfg.IndexBlockCacheSize
    have hu' : updateIndex cfg.IndexBlockCacheSize (st.wrote ws size free) item.m_key
        (updateEntry sh { r with m_recordStart := p, m_pBlockManager := some m.clearDirtyFlags }
          m.clearDirtyFlags) = some (_, r') := hu
    dsimp only
    rw [hm, Option.bind_eq_bind, Option.bind_some, hw, Option.bind_eq_bind, Option.bind_some]
    dsimp only
    rw [hu']
    exact ⟨_, _, rfl, hiw.length_le_succ⟩

namespace Sys

variable {sh : Shared} {lru : ℕ → LRUCache} {removing : List UInt64}

/-- The loop of `ProcessIndexDeleteQueue` comes to its end. -/
theorem deleteItems_total (cacheSize : ℕ → ℕ) (rs : List RecordIndex) :
    ∀ (k : ℕ) (st : Storage) (lost : List ((ℕ × ℕ) × Region)), StorageInv sh st rs [] lost →
      ∃ st', (rs.zipIdx k).foldlM
          (fun self e => DiskWriter.deleteItem (cacheSize e.2) self e.1) st = some st'
        ∧ StorageInv sh st' [] [] lost ∧ st'.m_dataIndexes = st.m_dataIndexes
        ∧ st'.m_pQueue = st.m_pQueue ∧ st'.files.index.length = st.files.index.length := by
  induction rs with
  | nil =>
    intro k st lost h
    exact ⟨st, rfl, h, rfl, rfl, rfl⟩
  | cons r rs ih =>
    intro k st lost h
    obtain ⟨index, file, iw, st1, hi, hstore, hinv, -, hlen, -⟩ :=
      StorageInv.deleteItem h (cacheSize k)
    obtain ⟨st', hrun, hinv', hlive, hqueue, hlen'⟩ := ih (k + 1) st1 lost hinv
    have hlive1 : st1.m_dataIndexes = st.m_dataIndexes := by rw [hstore]
    have hqueue1 : st1.m_pQueue = st.m_pQueue := by rw [hstore]
    have hlen1 : st1.files.index.length = st.files.index.length := by
      rw [hstore]
      exact hlen
    refine ⟨st', ?_, hinv', hlive.trans hlive1, hqueue.trans hqueue1, hlen'.trans hlen1⟩
    rw [List.zipIdx_cons, List.foldlM_cons, hi]
    exact hrun

/-- The loop of `Process` comes to its end, with room for one block of the index for each
item. -/
theorem processItems_total (cfg : ℕ → DiskCfg) (items : List WriteInfo) :
    ∀ (k : ℕ) (st : Storage) (toAdd : List Region) (lost : List ((ℕ × ℕ) × Region)),
      StorageInv sh st [] toAdd lost → QueueInv st items →
      st.files.index.length + items.length < 2 ^ 20 →
      ∃ st' toAdd', (items.zipIdx k).foldlM (fun (s : Storage × List Region) e =>
          DiskWriter.processItem sh (cfg e.2) s.1 s.2 e.1) (st, toAdd) = some (st', toAdd')
        ∧ st'.files.index.length ≤ st.files.index.length + items.length := by
  induction items with
  | nil =>
    intro k st toAdd lost h hq hlt
    exact ⟨st, toAdd, rfl, Nat.le_refl _⟩
  | cons item items ih =>
    intro k st toAdd lost h hq hlt
    rw [List.length_cons] at hlt
    have hmgr : ∀ r, st.m_dataIndexes.lookup item.m_key = some r → r.m_pBlockManager ≠ none := by
      intro r hr
      exact hq.manager _ r hr (hq.flag _ r hr (Or.inr List.mem_cons_self))
    obtain ⟨st1, toAdd1, hp, hlen⟩ := h.processItem (by omega) hmgr (cfg k)
    have hnext : (∃ lost', StorageInv sh st1 [] toAdd1 lost') ∧ QueueInv st1 items := by
      rcases h.data.processItem_cases hp with
        ⟨-, rfl, rfl⟩ | ⟨r, m, r', ws, size, free, p, index, file, log, hi, rfl⟩
      · exact ⟨⟨lost, h⟩, hq.tail⟩
      · exact ⟨⟨lost, (h.itemDone (by omega) hi).1⟩, QueueInv.itemDone hq hi⟩
    obtain ⟨⟨lost', h1⟩, hq1⟩ := hnext
    obtain ⟨st', toAdd', hrun, hlen'⟩ := ih (k + 1) st1 toAdd1 lost' h1 hq1 (by omega)
    refine ⟨st', toAdd', ?_, ?_⟩
    · rw [List.zipIdx_cons, List.foldlM_cons, hp]
      exact hrun
    · rw [List.length_cons]
      omega

/-- The keys of the two queues as `Process` may come to them. -/
structure Orders (st : Storage) (args : ProcessArgs) : Prop where
  deleted : args.deleteOrder.Perm st.m_pRIDelQueue.keys
  queued : args.order.Perm st.m_pQueue.keys
  sorted : (args.order.filterMap st.m_pQueue.lookup).Pairwise SortWriteInfoForWrite

instance (st : Storage) (args : ProcessArgs) : Decidable (Orders st args) :=
  decidable_of_iff (_ ∧ _ ∧ _) ⟨fun h => ⟨h.1, h.2.1, h.2.2⟩, fun h => ⟨h.1, h.2, h.3⟩⟩

/-- A flush comes to its end. -/
theorem process_total {st : Storage} {lost : List ((ℕ × ℕ) × Region)} {args : ProcessArgs}
    (h : StorageInv sh st [] [] lost) (hq : QueueInv st []) (hargs : Orders st args)
    (hroom : st.files.index.length + st.m_pQueue.keys.length < 2 ^ 20) :
    ∃ st', Process sh args st = some st' ∧ st'.files.index.length < 2 ^ 20 := by
  have hget : getDeleted st args.deleteOrder
      = some (args.deleteOrder.filterMap st.m_pRIDelQueue.lookup,
        { st with m_pRIDelQueue := ∅ }) := by
    rw [getDeleted, if_pos hargs.deleted]
  have hinv1 := StorageInv.getDeleted h hget
  obtain ⟨st2, hdel, hinv2, hlive, hqueue, hlen⟩ := deleteItems_total args.deleteCacheSize
    (args.deleteOrder.filterMap st.m_pRIDelQueue.lookup) 0 _ lost hinv1
  have hqueue2 : st2.m_pQueue = st.m_pQueue := hqueue
  have hitems : DiskWriter.getItems st2 args.order
      = some (args.order.filterMap st.m_pQueue.lookup, { st2 with m_pQueue := ∅ }) := by
    rw [DiskWriter.getItems, hqueue2]
    exact if_pos ⟨hargs.queued, hargs.sorted⟩
  have hq3 := ((hq.congr hlive hqueue2).getItems hitems).1
  have hlen2 : st2.files.index.length = st.files.index.length := hlen
  have hcount : (args.order.filterMap st.m_pQueue.lookup).length ≤ st.m_pQueue.keys.length := by
    have hle := List.length_filterMap_le st.m_pQueue.lookup args.order
    rwa [hargs.queued.length_eq] at hle
  have hlt : st2.files.index.length + (args.order.filterMap st.m_pQueue.lookup).length
      < 2 ^ 20 := by omega
  obtain ⟨st4, toAdd, hprocess, hlen4⟩ := processItems_total args.cfg
    (args.order.filterMap st.m_pQueue.lookup) 0 { st2 with m_pQueue := ∅ } [] lost
    (Inv.queue hinv2 _) hq3 hlt
  refine ⟨toAdd.foldl Storage.addFreeSpace st4, ?_, ?_⟩
  · rw [Process, ProcessIndexDeleteQueue, hget, Option.bind_eq_bind, Option.bind_eq_bind,
      Option.bind_some]
    dsimp only
    rw [hdel, Option.bind_some, hitems, Option.bind_eq_bind, Option.bind_some]
    dsimp only
    rw [hprocess]
    rfl
  · rw [Storage.foldl_addFreeSpace]
    show st4.files.index.length < 2 ^ 20
    have hlen4' : st4.files.index.length
        ≤ st2.files.index.length + (args.order.filterMap st.m_pQueue.lookup).length := hlen4
    omega

end Sys

end TransDB
