/-
What `m_memoryUsed` counts.

It is to be the memory usage of all block managers in memory. A load, an eviction and
a deletion add or subtract the usage of one manager, and an edit the difference it
makes; all of it is arithmetic of `uint64`. `DefragmentDataInternal` takes its own
difference only, and with the wrong sign when the usage does not shrink: a write that
ends in it is not counted. `Balanced` says when the outcome is right all the same.
-/
import TransDB.SystemInv
import Mathlib.Algebra.BigOperators.Group.List.Basic

set_option autoImplicit false

namespace TransDB

open DiskWriter Storage

/-! ## The sum -/

section Total

variable (sh : Shared)

/-- The memory usage of the block manager of an entry, if it is in memory. -/
def residentUsage (r : RecordIndex) : List ℕ := r.m_pBlockManager.toList.map (Blman.memoryUsage sh)

/-- The memory usage of all block managers in memory. -/
def totalUsage (s : RecordIndexMap) : ℕ := (KeyMap.collect (fun _ => residentUsage sh) s).sum

variable {sh} {s : RecordIndexMap} {x : UInt64} {r r' : RecordIndex}

theorem totalUsage_insert (s : RecordIndexMap) (x : UInt64) (r' : RecordIndex) :
    totalUsage sh (s.insert x r') = (residentUsage sh r').sum + totalUsage sh (s.erase x) := by
  rw [totalUsage, KeyMap.collect_insert, List.sum_append, totalUsage]

theorem totalUsage_erase (hx : s.lookup x = some r) :
    totalUsage sh s = (residentUsage sh r).sum + totalUsage sh (s.erase x) := by
  rw [totalUsage, (KeyMap.collect_perm hx).sum_nat, List.sum_append, totalUsage]

theorem residentUsage_some {m : Blman} (hm : r.m_pBlockManager = some m) :
    (residentUsage sh r).sum = m.memoryUsage sh := by
  rw [residentUsage, hm]
  exact Nat.add_zero _

theorem residentUsage_none (hm : r.m_pBlockManager = none) : (residentUsage sh r).sum = 0 := by
  rw [residentUsage, hm]
  rfl

theorem ofNat_residentUsage (r : RecordIndex) :
    UInt64.ofNat (residentUsage sh r).sum = usageOf sh r := by
  rw [usageOf]
  cases hm : r.m_pBlockManager with
  | none =>
    rw [residentUsage_none hm]
    rfl
  | some m =>
    rw [residentUsage_some hm]
    rfl

end Total

/-- `m_memoryUsed` is the usage of all block managers in memory. -/
def Storage.MemoryExact (sh : Shared) (st : Storage) : Prop :=
  st.m_memoryUsed = UInt64.ofNat (totalUsage sh st.m_dataIndexes)

/-! ## Defragmentation -/

/-- When the sum comes out right with the difference that `DefragmentDataInternal` adds:
`before` is the usage before the operation, `middle` when the defragmentation begins,
`after` when it has ended. -/
def Balanced (before middle after : ℕ) : Prop :=
  if after < middle then middle = before else before + middle = after + after

instance (before middle after : ℕ) : Decidable (Balanced before middle after) :=
  inferInstanceAs
    (Decidable (if after < middle then middle = before else before + middle = after + after))

theorem Balanced.usageChange {sh : Shared} {m0 m m' : Blman}
    (h : Balanced (m0.memoryUsage sh) (m.memoryUsage sh) (m'.memoryUsage sh)) :
    (if m'.memoryUsage sh < m.memoryUsage sh then Edit.usageChange sh m m'
      else Edit.usageChange sh m' m) = Edit.usageChange sh m0 m' := by
  rw [Balanced] at h
  by_cases hlt : m'.memoryUsage sh < m.memoryUsage sh
  · rw [if_pos hlt] at h ⊢
    rw [Edit.usageChange, Edit.usageChange, memoryUsage, memoryUsage, memoryUsage, h]
  · rw [if_neg hlt] at h ⊢
    have hsum := congrArg UInt64.ofNat h
    rw [UInt64.ofNat_add, UInt64.ofNat_add] at hsum
    rw [Edit.usageChange, Edit.usageChange, memoryUsage, memoryUsage, memoryUsage]
    grind

/-- In no other case does it come out right, for usages of any realistic size. -/
theorem Balanced.of_usageChange {sh : Shared} {m0 m m' : Blman} (h0 : m0.memoryUsage sh < 2 ^ 62)
    (h1 : m.memoryUsage sh < 2 ^ 62) (h2 : m'.memoryUsage sh < 2 ^ 62)
    (h : (if m'.memoryUsage sh < m.memoryUsage sh then Edit.usageChange sh m m'
      else Edit.usageChange sh m' m) = Edit.usageChange sh m0 m') :
    Balanced (m0.memoryUsage sh) (m.memoryUsage sh) (m'.memoryUsage sh) := by
  rw [Balanced]
  by_cases hlt : m'.memoryUsage sh < m.memoryUsage sh
  · rw [if_pos hlt] at h ⊢
    rw [Edit.usageChange, Edit.usageChange, memoryUsage, memoryUsage, memoryUsage] at h
    have hsame : UInt64.ofNat (m.memoryUsage sh) = UInt64.ofNat (m0.memoryUsage sh) := by grind
    have hnat := congrArg UInt64.toNat hsame
    rw [UInt64.toNat_ofNat', UInt64.toNat_ofNat'] at hnat
    omega
  · rw [if_neg hlt] at h ⊢
    rw [Edit.usageChange, Edit.usageChange, memoryUsage, memoryUsage, memoryUsage] at h
    have hsum : UInt64.ofNat (m0.memoryUsage sh) + UInt64.ofNat (m.memoryUsage sh)
        = UInt64.ofNat (m'.memoryUsage sh) + UInt64.ofNat (m'.memoryUsage sh) := by grind
    rw [← UInt64.ofNat_add, ← UInt64.ofNat_add] at hsum
    have hnat := congrArg UInt64.toNat hsum
    rw [UInt64.toNat_ofNat', UInt64.toNat_ofNat'] at hnat
    omega

/-- The defragmentation an action can end in. -/
structure Defragmentation where
  x : UInt64
  /-- The block manager when it begins, from the one before the action. -/
  start : Blman → Option Blman
  cfgs : ℕ → WriteCfg

/-- What an action defragments: a `DefragmentData` the manager it finds, a `WriteData` the
one its write leaves, if the write says so. -/
def Action.defragments (sh : Shared) : Action → Option Defragmentation
  | .writeData _ cfg cfgs x y pRecord => some ⟨x, fun m =>
    (m.writeRecord sh cfg y pRecord).bind fun w => if w.1.needDefrag then some w.2 else none, cfgs⟩
  | .defragmentData _ cfgs x => some ⟨x, some, cfgs⟩
  | _ => none

namespace Sys

variable {sh : Shared}

/-- The defragmentation of an action, if there is one, is counted correctly. -/
def DefragOk (sh : Shared) (s : Sys) (a : Action) (_ : Sys) : Prop :=
  ∀ d ∈ a.defragments sh, ∀ m ∈ s.store.managerOf sh d.x, ∀ m1 ∈ d.start m,
    ∀ m2 ∈ m1.defragmentData sh d.cfgs,
      Balanced (m.memoryUsage sh) (m1.memoryUsage sh) (m2.memoryUsage sh)

instance (s : Sys) (a : Action) (t : Sys) : Decidable (DefragOk sh s a t) :=
  inferInstanceAs (Decidable (∀ _ ∈ _, ∀ _ ∈ _, ∀ _ ∈ _, ∀ _ ∈ _, _))

/-- Every edit adds the difference it makes. -/
theorem edits_memory {s t : Sys} {a : Action} (h : DefragOk sh s a t) {x : UInt64} {m : Blman}
    {e : Edit} (he : s.Edits sh a x m e) : e.memory = Edit.usageChange sh m e.after := by
  cases he with
  | write w cfg cfgs _ y pRecord _ status _ hm hw =>
    obtain ⟨m', hwrite, hcases⟩ := Edit.write_cases hw
    rcases hcases with ⟨hbig, rfl⟩ | ⟨-, -, rfl⟩ | ⟨-, -, hdef, hd⟩ | ⟨-, -, -, rfl⟩
    · rcases Blman.writeRecord_status hwrite with ⟨-, -, -, hsame⟩ | ⟨-, hsmall, -⟩
      · rw [hsame]
        exact (UInt64.sub_self _).symm
      · cases hsmall.symm.trans hbig
    · rfl
    · obtain ⟨m2, hm2, hd⟩ := Option.bind_eq_some_iff.mp hd
      cases hd
      refine Balanced.usageChange (h _ rfl m hm m' ?_ m2 hm2)
      show (m.writeRecord sh cfg y pRecord).bind _ = some m'
      rw [hwrite, Option.bind_some, if_pos hdef]
    · rfl
  | delete w _ y _ _ hm hdel =>
    obtain ⟨m', -, hdel⟩ := Option.bind_eq_some_iff.mp hdel
    cases hdel
    rfl
  | defragment w cfgs _ _ _ hm hdef =>
    obtain ⟨m2, hm2, hdef⟩ := Option.bind_eq_some_iff.mp hdef
    cases hdef
    exact Balanced.usageChange (h _ rfl m hm m rfl m2 hm2)

end Sys

/-! ## The workers -/

namespace Storage.MemoryExact

variable {sh : Shared} {allowed : Allowed} {st st' : Storage}

/-- An entry that changes its usage by what is added. -/
theorem insert {x : UInt64} {r r' : RecordIndex} {used : UInt64} (h : st.MemoryExact sh)
    (hx : st.m_dataIndexes.lookup x = some r)
    (hused : used = st.m_memoryUsed + (usageOf sh r' - usageOf sh r)) :
    used = UInt64.ofNat (totalUsage sh (st.m_dataIndexes.insert x r')) := by
  rw [MemoryExact, totalUsage_erase hx, UInt64.ofNat_add, ofNat_residentUsage] at h
  rw [totalUsage_insert, UInt64.ofNat_add, ofNat_residentUsage, hused, h]
  grind

theorem effect (h : st.MemoryExact sh)
    (hedit : ∀ x m e, allowed.edit x m e → e.memory = Edit.usageChange sh m e.after)
    (he : Effect sh allowed st st') : st'.MemoryExact sh := by
  cases he with
  | load x r bs m hx hmgr hrel hread hm =>
    refine h.insert hx ?_
    rw [usageOf, usageOf, hmgr]
    dsimp only
    rw [UInt64.sub_zero]
    rfl
  | edit x r m e hx hm hok ha =>
    rw [MemoryExact, Edit.apply_dataIndexes]
    refine h.insert hx ?_
    rw [Edit.apply_memory, hedit x m e ha, Edit.usageChange, usageOf, usageOf, hm]
  | create x m blockCount hx hm =>
    have hnew : totalUsage sh (st.created sh x m blockCount).m_dataIndexes
        = m.memoryUsage sh + totalUsage sh st.m_dataIndexes := by
      show totalUsage sh (st.m_dataIndexes.insert x _) = _
      rw [totalUsage_insert, residentUsage_some rfl, totalUsage, totalUsage,
        KeyMap.collect_erase_of_none hx]
    rw [MemoryExact, hnew, UInt64.ofNat_add, UInt64.add_comm, ← h]
    rfl
  | delete x r hx ha =>
    rw [MemoryExact, totalUsage_erase hx, UInt64.ofNat_add, ofNat_residentUsage] at h
    show st.m_memoryUsed - usageOf sh r = UInt64.ofNat (totalUsage sh (st.m_dataIndexes.erase x))
    rw [h]
    grind
  | evict x r m hx hm hidle =>
    rw [evict_some hm]
    refine h.insert hx ?_
    show st.m_memoryUsed - memoryUsage sh m = _
    rw [usageOf, usageOf, hm]
    grind

end Storage.MemoryExact

/-! ## The disk thread -/

/-- The members `m_memoryUsed` is about are as before. -/
structure Storage.SameMemory (st st' : Storage) : Prop where
  used : st'.m_memoryUsed = st.m_memoryUsed
  live : st'.m_dataIndexes = st.m_dataIndexes

namespace Storage.SameMemory

variable {st st' st'' : Storage}

theorem trans (h : st.SameMemory st') (h' : st'.SameMemory st'') : st.SameMemory st'' :=
  ⟨h'.used.trans h.used, h'.live.trans h.live⟩

theorem exact {sh : Shared} (h : st.SameMemory st') (hst : st.MemoryExact sh) :
    st'.MemoryExact sh := by
  rw [MemoryExact, h.used, h.live]
  exact hst

end Storage.SameMemory

section DiskThread

variable {sh : Shared} {st st' : Storage}

theorem takeFreeSpace_sameMemory {len freePos : Int}
    (h : takeFreeSpace st len = some (freePos, st')) : st.SameMemory st' := by
  obtain ⟨⟨pos, free⟩, -, h⟩ := Option.bind_eq_some_iff.mp h
  cases h
  exact ⟨rfl, rfl⟩

theorem allocate_sameMemory {ReallocSize len freePos : Int}
    (h : allocate ReallocSize st len = some (freePos, st')) : st.SameMemory st' := by
  obtain ⟨⟨pos, st1⟩, htake, h⟩ := Option.bind_eq_some_iff.mp h
  have h1 := takeFreeSpace_sameMemory htake
  dsimp only at h
  by_cases hpos : pos = -1
  · rw [if_pos hpos] at h
    have hrealloc : st1.SameMemory (ReallocDataFile ReallocSize st1 len true) := ⟨rfl, rfl⟩
    exact h1.trans (hrealloc.trans (takeFreeSpace_sameMemory h))
  · rw [if_neg hpos] at h
    cases h
    exact h1

theorem writeDirtyLoop_sameMemory (recordStart : Int) (blocks : List Block) :
    ∀ (i : ℕ) (st : Storage), st.SameMemory (writeDirtyLoop recordStart i blocks st).2
      ∧ (writeDirtyLoop recordStart i blocks st).1.length = blocks.length := by
  intro i st
  rw [writeDirtyLoop_eq, Storage.foldl_write]
  exact ⟨⟨rfl, rfl⟩, List.length_map _⟩

/-- The blocks of an item are written; the manager keeps its size. -/
theorem writeBlocks_sameMemory {ReallocSize : Int} {r : RecordIndex} {m : Blman}
    {written : Option (RecordIndex × Blman × List Region)}
    (h : writeBlocks ReallocSize st r m = some (st', written)) :
    st.SameMemory st' ∧ ∀ w ∈ written, w.1.m_pBlockManager = some w.2.1
      ∧ w.2.1.memoryUsage sh = m.memoryUsage sh := by
  rw [writeBlocks] at h
  by_cases hrel : r.relocateBlocks = true
  · rw [if_pos hrel] at h
    obtain ⟨⟨st1, w⟩, hwrite, h⟩ := Option.bind_eq_some_iff.mp h
    obtain ⟨⟨pos, st2⟩, hal, hwrite⟩ := Option.bind_eq_some_iff.mp hwrite
    have h2 := allocate_sameMemory hal
    dsimp only at hwrite
    by_cases hpos : pos = -1
    · rw [if_pos hpos] at hwrite
      cases hwrite
      cases h
      refine ⟨h2, ?_⟩
      rintro w ⟨⟩
    · rw [if_neg hpos] at hwrite
      cases hwrite
      cases h
      refine ⟨h2.trans ⟨rfl, rfl⟩, ?_⟩
      rintro w ⟨⟩
      exact ⟨rfl, Blman.clearDirtyFlags_memoryUsage sh m⟩
  · rw [if_neg hrel] at h
    obtain ⟨hsame, hlen⟩ := writeDirtyLoop_sameMemory r.m_recordStart m.blocks 0 st
    cases h
    refine ⟨hsame, ?_⟩
    rintro w ⟨⟩
    refine ⟨rfl, ?_⟩
    rw [Blman.memoryUsage, Blman.memoryUsage, Blman.blockCount, Blman.blockCount, hlen]

theorem processItem_exact {cfg : DiskCfg} {toAdd toAdd' : List Region} {item : WriteInfo}
    (h : processItem sh cfg st toAdd item = some (st', toAdd')) (hst : st.MemoryExact sh) :
    st'.MemoryExact sh := by
  rw [processItem] at h
  cases hx : st.m_dataIndexes.lookup item.m_key with
  | none =>
    rw [hx] at h
    cases h
    exact hst
  | some r =>
    rw [hx] at h
    obtain ⟨m, hm, h⟩ := Option.bind_eq_some_iff.mp h
    obtain ⟨⟨st1, written⟩, hwrite, h⟩ := Option.bind_eq_some_iff.mp h
    obtain ⟨hsame, hmgr⟩ : st.SameMemory st1 ∧ ∀ w ∈ written,
        w.1.m_pBlockManager = some w.2.1 ∧ w.2.1.memoryUsage sh = m.memoryUsage sh :=
      writeBlocks_sameMemory hwrite
    cases written with
    | none =>
      cases h
      exact hsame.exact hst
    | some w =>
      obtain ⟨r1, m1, unused⟩ := w
      obtain ⟨hr1, husage⟩ := hmgr _ rfl
      obtain ⟨⟨st2, r2⟩, hupdate, h⟩ := Option.bind_eq_some_iff.mp h
      obtain ⟨index, file, log, offset, number, rfl, rfl⟩ := updateIndex_cases hupdate
      cases h
      have hst1 := hsame.exact hst
      rw [← hsame.live] at hx
      refine hst1.insert hx ?_
      have hnew : ∀ st2, usageOf sh (clearQueued st2 item.m_key { updateEntry sh r1 m1 with
          m_IB_recordOffset := offset, m_IB_blockNumber := number, dirty := false })
          = usageOf sh r := by
        intro st2
        have hm1 : (clearQueued st2 item.m_key { updateEntry sh r1 m1 with
            m_IB_recordOffset := offset, m_IB_blockNumber := number, dirty := false }).m_pBlockManager
            = some m1 := by
          rw [← hr1, clearQueued]
          split
          all_goals rfl
        rw [usageOf, usageOf, hm, hm1]
        exact congrArg UInt64.ofNat husage
      rw [hnew, UInt64.sub_self, UInt64.add_zero]
      rfl

/-- A start leaves no manager in memory. -/
theorem Init_exact {ReallocSize : Int} {forceStartup : Bool} {order : List ((ℕ × ℕ) × DREC)}
    {files : Files} (h : Storage.Init ReallocSize forceStartup order files = some st) :
    st.MemoryExact sh := by
  have hempty : st.m_memoryUsed = 0 ∧ st.m_dataIndexes = IndexBlock.fillMap order ∅ := by
    unfold Storage.Init at h
    dsimp only at h
    split at h
    · cases h
    -- the three ways `Init` returns all leave the map it has loaded
    have hmap : ∀ (ib : IndexBlock) (file : IndexFile) (fs : FreeSpaceBlockMap) (size : Int),
        (ib.Init file order (some ∅) fs size).2.2.1.getD ∅ = IndexBlock.fillMap order ∅ := by
      intro ib file fs size
      rw [IndexBlock.Init_map]
      rfl
    by_cases hzero : files.data.size = 0
    · simp only [if_pos hzero] at h
      split at h
      · cases h
        exact ⟨rfl, hmap _ _ _ _⟩
      · split at h
        · cases h
          exact ⟨rfl, hmap _ _ _ _⟩
        · cases h
    · simp only [if_neg hzero] at h
      split at h
      · cases h
        exact ⟨rfl, hmap _ _ _ _⟩
      · split at h
        · cases h
          exact ⟨rfl, hmap _ _ _ _⟩
        · cases h
  have hnone : ∀ n ∈ KeyMap.collect (fun _ => residentUsage sh) st.m_dataIndexes, n = 0 := by
    intro n hn
    obtain ⟨x, r, hx, hn⟩ := KeyMap.mem_collect.mp hn
    rw [hempty.2] at hx
    rcases lookup_fillMap_some hx with hnone | ⟨e, -, -, rfl⟩
    · cases hnone
    · cases hn
  rw [MemoryExact, hempty.1, totalUsage, List.sum_eq_zero hnone]
  rfl

end DiskThread

namespace Sys

variable {sh : Shared}

theorem memory_move {s t : Sys} {a : Action} (h : s.store.MemoryExact sh) (hok : DefragOk sh s a t)
    (hm : Move sh s a t) : t.store.MemoryExact sh := by
  cases hm with
  | worker store lru removing he hr =>
    exact he.invariant (Storage.MemoryExact sh)
      (fun st st' hst he1 => hst.effect (fun x m e hedit => edits_memory hok hedit) he1) h
  | remove x ha hx => exact h
  | beginProcess order rs store hdisk hg =>
    obtain ⟨-, -, rfl⟩ := getDeleted_cases hg
    exact h
  | deleteItem cacheSize r rest store hdisk hi =>
    obtain ⟨index, file, log, erased, rfl⟩ := deleteItem_cases hi
    rw [Storage.foldl_addFreeSpace]
    exact h
  | getItems order items store hdisk hg =>
    obtain ⟨-, -, rfl⟩ := getItems_cases hg
    exact h
  | processItem cfg item items toAdd toAdd' store hdisk hp => exact processItem_exact hp h
  | addFreeSpace r rest hdisk => exact h
  | endProcess hdisk => exact h
  | defragmentFreeSpace order ha hdisk horder => exact h
  | restart ReallocSize forceStartup order store ha hdisk horder hi => exact Init_exact hi

/-- In every run whose defragmentations are counted correctly, `m_memoryUsed` is the
memory usage of all block managers in memory. -/
theorem memory_reach {s : Sys} (h : (server sh).Reach (DefragOk sh) s) :
    s.store.MemoryExact sh := by
  refine h.invariant (fun s => s.store.MemoryExact sh) ?_ ?_
  · rintro s ⟨ReallocSize, store, hinit, rfl⟩
    exact Init_exact hinit
  · intro s a t hs hok hstep
    exact memory_move hs hok (step_move hstep)

end Sys

end TransDB
