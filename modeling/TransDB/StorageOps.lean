/-
What a worker function does to the store.

Every worker function is at most two effects, one after the other: the block
manager of its X loaded, and then one change of the entry of X. `Effect` lists
what these can be, and each function is shown to be made of them once. An
invariant of the workers is then proved effect by effect.

The functions that change a block manager in place differ in what they do to the
manager, to `m_memoryUsed` and to the flags of the entry, and in nothing else.
This is an `Edit`, and it does not depend on the store.
-/
import TransDB.Storage
import TransDB.BlockManagerLoad
import Mathlib.Logic.Relation

set_option autoImplicit false

namespace TransDB

open DiskWriter Storage

/-! ## Edits -/

/-- What a worker does with the block manager of an entry. -/
structure Edit where
  after : Blman
  /-- What is added to `m_memoryUsed`. -/
  memory : UInt64
  /-- `eRIF_RelocateBlocks` and `eRIF_Dirty` are set. -/
  relocate : Bool
  /-- The X is queued. -/
  queued : Bool

namespace Edit

/-- The edit made on the entry of `x`. -/
def apply (e : Edit) (self : Storage) (x : UInt64) (r : RecordIndex) : Storage :=
  let self := { self with m_memoryUsed := self.m_memoryUsed + e.memory }
  let r := { r with
    m_pBlockManager := some e.after
    relocateBlocks := r.relocateBlocks || e.relocate
    dirty := r.dirty || e.relocate }
  if e.queued then Queue self x r else self.setIndex x r

/-- What the invariants need to know of an edit of `m`: blocks that stay where they
are differ from those of `m` in dirty blocks only. -/
structure Ok (m : Blman) (e : Edit) : Prop where
  inv : e.after.Inv
  frame : e.relocate = false → DirtyFrame m.blocks e.after.blocks
  count : e.relocate = false → e.after.blockCount = m.blockCount
  queued : e.relocate = true → e.queued = true

variable (sh : Shared)

/-- The change of the memory usage, as a difference of `uint64`. -/
def usageChange (m m' : Blman) : UInt64 := memoryUsage sh m' - memoryUsage sh m

/-- The edit of `DefragmentDataInternal`. -/
def defragment (cfg : ℕ → WriteCfg) (m : Blman) : Option Edit := do
  let m' ← m.defragmentData sh cfg
  return {
    after := m'
    memory :=
      if m'.memoryUsage sh < m.memoryUsage sh then usageChange sh m m' else usageChange sh m' m
    relocate := true
    queued := true }

/-- The edit of `WriteData` on an existing X. -/
def write (cfg : WriteCfg) (cfgs : ℕ → WriteCfg) (y : UInt64) (pRecord : List UInt8) (m : Blman) :
    Option (WriteStatus × Edit) := do
  let (status, m') ← m.writeRecord sh cfg y pRecord
  if status.failRecordTooBig then
    return (status, { after := m', memory := 0, relocate := false, queued := false })
  else if status.oldRecord then
    return (status,
      { after := m', memory := usageChange sh m m', relocate := false, queued := false })
  else if status.needDefrag then
    return (status, ← defragment sh cfgs m')
  else
    return (status, { after := m', memory := usageChange sh m m'
                      relocate := status.reallocatedBlocks, queued := true })

/-- The edit of `DeleteData` of one record. -/
def delete (y : UInt64) (m : Blman) : Option Edit := do
  let m' ← m.deleteRecordByKey y
  return { after := m', memory := usageChange sh m m', relocate := false, queued := true }

variable {sh} {m : Blman} {e : Edit}

theorem defragment_ok (h : m.Inv) {cfg : ℕ → WriteCfg} (he : defragment sh cfg m = some e)
    (m0 : Blman) : e.Ok m0 := by
  obtain ⟨m', hm', he⟩ := Option.bind_eq_some_iff.mp he
  cases he
  refine ⟨h.defragmentData hm', ?_, ?_, fun _ => rfl⟩
  · intro hrel
    cases hrel
  · intro hrel
    cases hrel

theorem delete_ok (h : m.Inv) {y : UInt64} (he : delete sh y m = some e) : e.Ok m := by
  obtain ⟨m', hm', he⟩ := Option.bind_eq_some_iff.mp he
  cases he
  obtain ⟨m'', hm'', hb⟩ := Blman.deleteRecordByKey_spec h y
  rw [hm'] at hm''
  cases hm''
  exact ⟨hb.inv, fun _ => hb.frame, fun _ => hb.count, fun hrel => by cases hrel⟩

/-- The cases of a write, each with its status. -/
theorem write_cases {cfg : WriteCfg} {cfgs : ℕ → WriteCfg} {y : UInt64} {pRecord : List UInt8}
    {status : WriteStatus} (he : write sh cfg cfgs y pRecord m = some (status, e)) :
    ∃ m', m.writeRecord sh cfg y pRecord = some (status, m')
      ∧ (status.failRecordTooBig = true ∧ e = ⟨m', 0, false, false⟩
        ∨ status.failRecordTooBig = false ∧ status.oldRecord = true
          ∧ e = ⟨m', usageChange sh m m', false, false⟩
        ∨ status.failRecordTooBig = false ∧ status.oldRecord = false ∧ status.needDefrag = true
          ∧ defragment sh cfgs m' = some e
        ∨ status.failRecordTooBig = false ∧ status.oldRecord = false ∧ status.needDefrag = false
          ∧ e = ⟨m', usageChange sh m m', status.reallocatedBlocks, true⟩) := by
  obtain ⟨⟨status', m'⟩, hw, he⟩ := Option.bind_eq_some_iff.mp he
  dsimp only at he
  by_cases hbig : status'.failRecordTooBig = true
  · rw [if_pos hbig] at he
    cases he
    exact ⟨m', hw, Or.inl ⟨hbig, rfl⟩⟩
  rw [if_neg hbig] at he
  have hsmall := Bool.eq_false_iff.mpr hbig
  by_cases hold : status'.oldRecord = true
  · rw [if_pos hold] at he
    cases he
    exact ⟨m', hw, Or.inr (Or.inl ⟨hsmall, hold, rfl⟩)⟩
  rw [if_neg hold] at he
  have hnew := Bool.eq_false_iff.mpr hold
  by_cases hdef : status'.needDefrag = true
  · rw [if_pos hdef] at he
    obtain ⟨e', hd, he⟩ := Option.bind_eq_some_iff.mp he
    cases he
    exact ⟨m', hw, Or.inr (Or.inr (Or.inl ⟨hsmall, hnew, hdef, hd⟩))⟩
  · rw [if_neg hdef] at he
    cases he
    exact ⟨m', hw, Or.inr (Or.inr (Or.inr ⟨hsmall, hnew, Bool.eq_false_iff.mpr hdef, rfl⟩))⟩

theorem write_ok (h : m.Inv) {cfg : WriteCfg} {cfgs : ℕ → WriteCfg} {y : UInt64}
    {pRecord : List UInt8} {status : WriteStatus}
    (he : write sh cfg cfgs y pRecord m = some (status, e)) : e.Ok m := by
  obtain ⟨m', hw, hcases⟩ := write_cases he
  have hm := Blman.writeRecord_cases h hw
  rcases hcases with ⟨hbig, rfl⟩ | ⟨hsmall, hold, rfl⟩ | ⟨-, -, -, hd⟩ | ⟨-, -, -, rfl⟩
  · refine ⟨hm.inv h, fun _ => hm.frame, fun _ => hm.count ?_, fun hrel => by cases hrel⟩
    cases hm with
    | tooBig _ => rfl
    | updated _ _ _ _ _ => rfl
    | refused _ _ _ _ hsmall _ _ _ _ => rw [hsmall] at hbig; cases hbig
    | stored _ _ _ _ hsmall _ _ _ _ _ _ _ => rw [hsmall] at hbig; cases hbig
  · refine ⟨hm.inv h, fun _ => hm.frame, fun _ => ?_, fun hrel => by cases hrel⟩
    cases hm with
    | tooBig _ => cases hold
    | updated _ _ _ _ _ => cases hold
    | refused _ _ _ _ _ _ _ _ hb => exact hb.count
    | stored _ _ _ hnew _ _ _ _ _ _ _ _ => rw [hnew] at hold; cases hold
  · exact defragment_ok (hm.inv h) hd m
  · exact ⟨hm.inv h, fun _ => hm.frame, fun hrel => hm.count hrel, fun _ => rfl⟩

end Edit

/-! ## Effects -/

namespace Storage

variable (sh : Shared)

/-- The entry of `x` with its block manager loaded. -/
def loaded (self : Storage) (x : UInt64) (r : RecordIndex) (m : Blman) : Storage :=
  { self with m_memoryUsed := self.m_memoryUsed + memoryUsage sh m }.setIndex x
    { r with m_pBlockManager := some m }

/-- The entry of a new X. -/
def newIndex (m : Blman) (blockCount : ℕ) : RecordIndex where
  m_recordStart := -1
  m_pBlockManager := some m
  m_blockCount := blockCount
  m_IB_recordOffset := -1
  m_IB_blockNumber := 0
  m_crc32 := 0
  relocateBlocks := true
  dirty := true
  inDiskWriteQueue := false

/-- A new X. -/
def created (self : Storage) (x : UInt64) (m : Blman) (blockCount : ℕ) : Storage :=
  Queue { self with m_memoryUsed := self.m_memoryUsed + memoryUsage sh m } x
    (newIndex m blockCount)

/-- The memory usage of the block manager of an entry, if it is in memory. -/
def usageOf (r : RecordIndex) : UInt64 :=
  match r.m_pBlockManager with
  | some m => memoryUsage sh m
  | none => 0

/-- An X deleted. -/
def deleted (self : Storage) (x : UInt64) (r : RecordIndex) : Storage :=
  { QueueIndexDeletetion self x r with
    m_memoryUsed := self.m_memoryUsed - usageOf sh r
    m_dataIndexes := self.m_dataIndexes.erase x }

/-- The block manager of an X that would be used, loaded if it is not in memory. -/
def managerOf (self : Storage) (x : UInt64) : Option Blman := do
  let r ← self.m_dataIndexes.lookup x
  let (_, _, m) ← self.CheckBlockManager sh x r
  return m

end Storage

/-- The edits a worker makes, each with its X and the manager it finds, and the X it
deletes. -/
structure Allowed where
  edit : UInt64 → Blman → Edit → Prop
  delete : UInt64 → Prop

/-- What one effect of a worker is. -/
inductive Effect (sh : Shared) (allowed : Allowed) (st : Storage) : Storage → Prop
  | load (x : UInt64) (r : RecordIndex) (bs : List Block) (m : Blman)
    (hx : st.m_dataIndexes.lookup x = some r) (hmgr : r.m_pBlockManager = none)
    (hrel : r.relocateBlocks = false)
    (hread : st.files.data.fread r.m_recordStart r.m_blockCount = some bs)
    (hm : Blman.create (some bs) = some m) :
    Effect sh allowed st (st.loaded sh x r m)
  | edit (x : UInt64) (r : RecordIndex) (m : Blman) (e : Edit)
    (hx : st.m_dataIndexes.lookup x = some r) (hm : r.m_pBlockManager = some m)
    (hok : m.Inv → e.Ok m) (ha : allowed.edit x m e) :
    Effect sh allowed st (e.apply st x r)
  | create (x : UInt64) (m : Blman) (blockCount : ℕ)
    (hx : st.m_dataIndexes.lookup x = none) (hm : m.Inv) :
    Effect sh allowed st (st.created sh x m blockCount)
  | delete (x : UInt64) (r : RecordIndex) (hx : st.m_dataIndexes.lookup x = some r)
    (ha : allowed.delete x) :
    Effect sh allowed st (st.deleted sh x r)
  | evict (x : UInt64) (r : RecordIndex) (m : Blman)
    (hx : st.m_dataIndexes.lookup x = some r) (hm : r.m_pBlockManager = some m)
    (hidle : r.inDiskWriteQueue = false) :
    Effect sh allowed st (st.evict sh x r)

/-- A number of effects, one after another. -/
abbrev Effects (sh : Shared) (allowed : Allowed) : Storage → Storage → Prop :=
  Relation.ReflTransGen (Effect sh allowed)

/-- What every effect keeps, a worker keeps. -/
theorem Effects.invariant {sh : Shared} {allowed : Allowed} (inv : Storage → Prop)
    (hstep : ∀ st st', inv st → Effect sh allowed st st' → inv st') {st st' : Storage}
    (h : Effects sh allowed st st') (hst : inv st) : inv st' := by
  induction h with
  | refl => exact hst
  | tail _ he ih => exact hstep _ _ ih he

namespace Storage

variable {sh : Shared} {allowed : Allowed} {st st' : Storage} {lru lru' : LRUCache}
  {x y : UInt64}

/-- What `CheckBlockManager` does. -/
theorem CheckBlockManager_cases {r r' : RecordIndex} {m : Blman}
    (hx : st.m_dataIndexes.lookup x = some r)
    (h : st.CheckBlockManager sh x r = some (st', r', m)) :
    Effects sh allowed st st' ∧ st'.m_dataIndexes.lookup x = some r'
      ∧ r'.m_pBlockManager = some m := by
  unfold CheckBlockManager at h
  cases hmgr : r.m_pBlockManager with
  | some m0 =>
    rw [hmgr] at h
    cases h
    exact ⟨.refl, hx, hmgr⟩
  | none =>
    rw [hmgr] at h
    by_cases hrel : r.relocateBlocks = true
    · rw [if_pos hrel] at h
      cases h
    rw [if_neg hrel] at h
    obtain ⟨bs, hread, h⟩ := Option.bind_eq_some_iff.mp h
    obtain ⟨m0, hm, h⟩ := Option.bind_eq_some_iff.mp h
    cases h
    refine ⟨.single ?_, AList.lookup_insert _, rfl⟩
    exact .load x r bs _ hx hmgr (Bool.eq_false_iff.mpr hrel) hread hm

theorem managerOf_eq {r r' : RecordIndex} {m : Blman} (hx : st.m_dataIndexes.lookup x = some r)
    (h : st.CheckBlockManager sh x r = some (st', r', m)) : st.managerOf sh x = some m := by
  rw [managerOf, hx, Option.bind_eq_bind, Option.bind_some, h]
  rfl

theorem withBlockManager_effects {β : Type} {read : Blman → Option β} {out : Option β}
    (h : st.withBlockManager sh lru x read = some (out, st', lru')) :
    Effects sh allowed st st' := by
  unfold withBlockManager at h
  cases hx : st.m_dataIndexes.lookup x with
  | none =>
    rw [hx] at h
    cases h
    exact .refl
  | some r =>
    rw [hx] at h
    obtain ⟨lru1, -, h⟩ := Option.bind_eq_some_iff.mp h
    obtain ⟨⟨st1, r1, m⟩, hcheck, h⟩ := Option.bind_eq_some_iff.mp h
    obtain ⟨out', -, h⟩ := Option.bind_eq_some_iff.mp h
    cases h
    exact (CheckBlockManager_cases hx hcheck).1

/-- `DefragmentDataInternal` is an edit. -/
theorem DefragmentDataInternal_eq (cfg : ℕ → WriteCfg) (x : UInt64) (r : RecordIndex) (m : Blman) :
    st.DefragmentDataInternal sh cfg x r m
      = (Edit.defragment sh cfg m).map fun e => e.apply st x r := by
  unfold DefragmentDataInternal Edit.defragment
  cases hd : m.defragmentData sh cfg with
  | none => rfl
  | some m' =>
    refine congrArg some ?_
    unfold Edit.apply
    by_cases hlt : m'.memoryUsage sh < m.memoryUsage sh
    · rw [if_pos hlt, if_pos hlt]
      dsimp only
      rw [Bool.or_true, Bool.or_true]
      rfl
    · rw [if_neg hlt, if_neg hlt]
      dsimp only
      rw [Bool.or_true, Bool.or_true]
      rfl

/-- `WriteData` on an existing X is an edit. -/
theorem afterWrite_eq {cfg : WriteCfg} {cfgs : ℕ → WriteCfg} {pRecord : List UInt8}
    {status : WriteStatus} {r : RecordIndex} {m m' : Blman}
    (hw : m.writeRecord sh cfg y pRecord = some (status, m'))
    (h : st.afterWrite sh cfgs x r (memoryUsage sh m) status m' = some st') :
    ∃ e, Edit.write sh cfg cfgs y pRecord m = some (status, e) ∧ st' = e.apply st x r := by
  unfold afterWrite at h
  unfold Edit.write
  rw [hw, Option.bind_eq_bind, Option.bind_some]
  dsimp only
  by_cases hbig : status.failRecordTooBig = true
  · rw [if_pos hbig] at h ⊢
    cases h
    refine ⟨_, rfl, ?_⟩
    rw [Edit.apply, Bool.or_false, Bool.or_false]
    show st.setIndex x _ = { st with m_memoryUsed := st.m_memoryUsed + 0 }.setIndex x _
    rw [UInt64.add_zero]
  rw [if_neg hbig] at h ⊢
  by_cases hold : status.oldRecord = true
  · rw [if_pos hold] at h ⊢
    cases h
    refine ⟨_, rfl, ?_⟩
    rw [Edit.apply, Bool.or_false, Bool.or_false]
    rfl
  rw [if_neg hold] at h ⊢
  by_cases hdef : status.needDefrag = true
  · rw [if_pos hdef] at h ⊢
    rw [DefragmentDataInternal_eq] at h
    obtain ⟨e, he, hst⟩ := Option.map_eq_some_iff.mp h
    rw [he]
    exact ⟨e, rfl, hst.symm⟩
  rw [if_neg hdef] at h ⊢
  by_cases hre : status.reallocatedBlocks = true
  · rw [if_pos hre] at h
    cases h
    refine ⟨_, rfl, ?_⟩
    rw [Edit.apply, hre, Bool.or_true, Bool.or_true]
    rfl
  · rw [if_neg hre] at h
    cases h
    refine ⟨_, rfl, ?_⟩
    rw [Edit.apply, Bool.eq_false_iff.mpr hre, Bool.or_false, Bool.or_false]
    rfl

theorem writeNew_cases {cfg : WriteCfg} {pRecord : List UInt8} {status : WriteStatus}
    (h : st.writeNew sh cfg x y pRecord = some (status, st')) :
    ∃ m blockCount, m.Inv ∧ st' = st.created sh x m blockCount := by
  unfold writeNew at h
  simp only [Option.bind_eq_bind, Option.bind_eq_some_iff] at h
  obtain ⟨m0, hm0, ⟨status', m⟩, hw, h⟩ := h
  cases h
  obtain ⟨m1, hm1, hinv, -⟩ := Blman.create_none
  rw [hm0] at hm1
  cases hm1
  exact ⟨m, m0.blockCount, (Blman.writeRecord_cases hinv hw).inv hinv, rfl⟩

theorem WriteData_effects {cfg : WriteCfg} {cfgs : ℕ → WriteCfg} {pRecord : List UInt8}
    {status : WriteStatus}
    (h : st.WriteData sh cfg cfgs lru x y pRecord = some (status, st', lru'))
    (ha : ∀ m e, st.managerOf sh x = some m →
      Edit.write sh cfg cfgs y pRecord m = some (status, e) → allowed.edit x m e) :
    Effects sh allowed st st' := by
  obtain ⟨lru1, -, h⟩ := Option.bind_eq_some_iff.mp h
  cases hx : st.m_dataIndexes.lookup x with
  | none =>
    rw [hx] at h
    obtain ⟨⟨status', st1⟩, hnew, h⟩ := Option.bind_eq_some_iff.mp h
    cases h
    obtain ⟨m, blockCount, hm, rfl⟩ := writeNew_cases hnew
    exact .single (.create x m blockCount hx hm)
  | some r =>
    rw [hx] at h
    obtain ⟨⟨st1, r1, m⟩, hcheck, h⟩ := Option.bind_eq_some_iff.mp h
    obtain ⟨⟨status', m'⟩, hw, h⟩ := Option.bind_eq_some_iff.mp h
    obtain ⟨st2, hafter, h⟩ := Option.bind_eq_some_iff.mp h
    cases h
    obtain ⟨hload, hx1, hm1⟩ : Effects sh allowed st st1 ∧ _ := CheckBlockManager_cases hx hcheck
    obtain ⟨e, he, rfl⟩ := afterWrite_eq hw hafter
    exact hload.tail (.edit x r1 m e hx1 hm1 (fun hinv => Edit.write_ok hinv he)
      (ha m e (managerOf_eq hx hcheck) he))

/-- What `DeleteData` does. -/
theorem DeleteData_cases (h : st.DeleteData sh lru x = some (st', lru')) :
    (st.m_dataIndexes.lookup x = none ∧ st' = st)
      ∨ ∃ r, st.m_dataIndexes.lookup x = some r ∧ st' = st.deleted sh x r := by
  unfold DeleteData at h
  cases hx : st.m_dataIndexes.lookup x with
  | none =>
    rw [hx] at h
    cases h
    exact Or.inl ⟨rfl, rfl⟩
  | some r =>
    rw [hx] at h
    obtain ⟨⟨found, lru1⟩, -, h⟩ := Option.bind_eq_some_iff.mp h
    cases h
    refine Or.inr ⟨r, rfl, ?_⟩
    rw [deleted, usageOf]
    cases hmgr : r.m_pBlockManager with
    | some m => rfl
    | none =>
      dsimp only
      rw [UInt64.sub_zero]
      rfl

theorem DeleteData_effects (h : st.DeleteData sh lru x = some (st', lru'))
    (ha : allowed.delete x) :
    Effects sh allowed st st' := by
  rcases DeleteData_cases h with ⟨-, rfl⟩ | ⟨r, hx, rfl⟩
  · exact .refl
  · exact .single (.delete x r hx ha)

theorem DeleteRecord_effects (h : st.DeleteRecord sh lru x y = some (st', lru'))
    (ha : ∀ m e, st.managerOf sh x = some m → Edit.delete sh y m = some e →
      allowed.edit x m e) :
    Effects sh allowed st st' := by
  unfold DeleteRecord at h
  cases hx : st.m_dataIndexes.lookup x with
  | none =>
    rw [hx] at h
    cases h
    exact .refl
  | some r =>
    rw [hx] at h
    obtain ⟨lru1, -, h⟩ := Option.bind_eq_some_iff.mp h
    obtain ⟨⟨st1, r1, m⟩, hcheck, h⟩ := Option.bind_eq_some_iff.mp h
    obtain ⟨m', hd, h⟩ := Option.bind_eq_some_iff.mp h
    cases h
    obtain ⟨hload, hx1, hm1⟩ : Effects sh allowed st st1 ∧ _ := CheckBlockManager_cases hx hcheck
    have he : Edit.delete sh y m = some ⟨m', Edit.usageChange sh m m', false, true⟩ := by
      rw [Edit.delete, hd]
      rfl
    have hedit : Effect sh allowed st1
        (Edit.apply ⟨m', Edit.usageChange sh m m', false, true⟩ st1 x r1) :=
      .edit x r1 m _ hx1 hm1 (fun hinv => Edit.delete_ok hinv he)
        (ha m _ (managerOf_eq hx hcheck) he)
    unfold Edit.apply at hedit
    dsimp only at hedit
    rw [Bool.or_false, Bool.or_false] at hedit
    exact hload.tail hedit

theorem DefragmentData_effects {cfgs : ℕ → WriteCfg}
    (h : st.DefragmentData sh cfgs lru x = some (st', lru'))
    (ha : ∀ m e, st.managerOf sh x = some m → Edit.defragment sh cfgs m = some e →
      allowed.edit x m e) :
    Effects sh allowed st st' := by
  unfold DefragmentData at h
  cases hx : st.m_dataIndexes.lookup x with
  | none =>
    rw [hx] at h
    cases h
    exact .refl
  | some r =>
    rw [hx] at h
    obtain ⟨lru1, -, h⟩ := Option.bind_eq_some_iff.mp h
    obtain ⟨⟨st1, r1, m⟩, hcheck, h⟩ := Option.bind_eq_some_iff.mp h
    obtain ⟨st2, hd, h⟩ := Option.bind_eq_some_iff.mp h
    cases h
    obtain ⟨hload, hx1, hm1⟩ : Effects sh allowed st st1 ∧ _ := CheckBlockManager_cases hx hcheck
    rw [DefragmentDataInternal_eq] at hd
    obtain ⟨e, he, rfl⟩ := Option.map_eq_some_iff.mp hd
    exact hload.tail (.edit x r1 m e hx1 hm1 (fun hinv => Edit.defragment_ok hinv he m)
      (ha m e (managerOf_eq hx hcheck) he))

theorem CheckMemory_effects {limit : UInt64}
    (h : st.CheckMemory sh limit lru = some (st', lru')) : Effects sh allowed st st' := by
  unfold CheckMemory at h
  by_cases hlim : limit < st.m_memoryUsed
  swap
  · rw [if_neg hlim] at h
    cases h
    exact .refl
  rw [if_pos hlim] at h
  obtain ⟨found, -, h⟩ := Option.bind_eq_some_iff.mp h
  cases found with
  | none =>
    cases h
    exact .refl
  | some x =>
    cases hx : st.m_dataIndexes.lookup x with
    | none =>
      simp only [hx] at h
      obtain ⟨⟨found, lru1⟩, -, h⟩ := Option.bind_eq_some_iff.mp h
      cases h
      exact .refl
    | some r =>
      simp only [hx] at h
      by_cases hq : r.inDiskWriteQueue = true
      · rw [if_pos hq] at h
        cases h
        exact .refl
      rw [if_neg hq] at h
      obtain ⟨⟨found, lru1⟩, -, h⟩ := Option.bind_eq_some_iff.mp h
      cases h
      cases hmgr : r.m_pBlockManager with
      | some m => exact .single (.evict x r m hx hmgr (Bool.eq_false_iff.mpr hq))
      | none =>
        rw [evict, hmgr]

end Storage

end TransDB
