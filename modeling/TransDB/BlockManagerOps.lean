/-
The functions of `BlockManager.c` over the map a manager stands for.

One theorem per function. For `blman_write_record` it is the inversion
`writeRecord_cases`: the four ways a call can end, each with the map it leaves
and with what the pre-state must have looked like. Whatever is proved about a
write afterwards is a case analysis over `Wrote` and never opens the function.
-/
import TransDB.BlockManagerSpec

set_option autoImplicit false

namespace TransDB

open ByteList Record

theorem AvlTable.erase_of_notMem {t : AvlTable} {k : UInt64} (h : k ∉ t) : t.erase k = t :=
  AList.ext (List.kerase_of_notMem_keys h)

theorem AvlTable.avlInsert_of_notMem {t : AvlTable} {k : UInt64} (n : ℕ) (h : k ∉ t) :
    t.avlInsert k n = t.insert k n := if_neg h

/-- A map without the keys of a list. -/
def RecordMap.removeKeys (f : RecordMap) (ks : List UInt64) : RecordMap :=
  fun k => if k ∈ ks then none else f k

theorem RecordMap.removeKeys_nil (f : RecordMap) : f.removeKeys [] = f := by
  funext k
  exact if_neg List.not_mem_nil

theorem RecordMap.removeKeys_cons (f : RecordMap) (k : UInt64) (ks : List UInt64) :
    RecordMap.removeKeys (Function.update f k none) ks = f.removeKeys (k :: ks) := by
  funext k'
  by_cases hk : k' = k
  · subst hk
    rw [removeKeys, removeKeys, Function.update_self, ite_self, if_pos List.mem_cons_self]
  · simp only [removeKeys, Function.update_of_ne hk, List.mem_cons, hk, false_or]

namespace Blman

/-- `m'` is a manager in order that holds the map `f` in as many blocks as `m`,
and the blocks it changed are marked dirty. -/
structure Becomes (m m' : Blman) (f : RecordMap) : Prop where
  inv : m'.Inv
  contents : m'.contents = f
  frame : DirtyFrame m.blocks m'.blocks
  count : m'.blockCount = m.blockCount

theorem Becomes.refl {m : Blman} (h : m.Inv) : m.Becomes m m.contents :=
  ⟨h, rfl, DirtyFrame.refl _, rfl⟩

theorem Becomes.trans {m m' m'' : Blman} {f g : RecordMap} (h : m.Becomes m' f)
    (h' : m'.Becomes m'' g) : m.Becomes m'' g :=
  ⟨h'.inv, h'.contents, h.frame.trans h'.frame, h'.count.trans h.count⟩

variable {m : Blman}

/-- A block replaced at one key, as `Becomes`. -/
theorem Inv.becomes_set (h : m.Inv) {n : ℕ} {b b' : Block} {key : UInt64}
    {v : Option (List UInt8)} {index : AvlTable} (hb : m.blocks[n]? = some b) (hv : b'.Valid)
    (hd : b'.isDirty = true) (hget : b'.get = Function.update b.get key v)
    (hne : ∀ k, k ≠ key → index.lookup k = m.blockIndex.lookup k)
    (hkey : index.lookup key = v.map fun _ => n)
    (hold : ∀ j, m.blockIndex.lookup key = some j → j = n) :
    m.Becomes ⟨index, m.blocks.set n b'⟩ (Function.update m.contents key v) := by
  obtain ⟨hinv, hc⟩ := h.set hb hv hget hne hkey hold
  exact ⟨hinv, hc, DirtyFrame.set hd, List.length_set⟩

/-! ## Deleting -/

theorem deleteRecordByNode_spec (h : m.Inv) {k : UInt64} {n : ℕ}
    (hl : m.blockIndex.lookup k = some n) :
    ∃ m', m.deleteRecordByNode k n = some m' ∧ m'.blockIndex = m.blockIndex.erase k
      ∧ m.Becomes m' (Function.update m.contents k none) := by
  obtain ⟨b, hb, hk⟩ := (h.index k n).mp hl
  obtain ⟨b', hdel, hv, hd, hget⟩ := (h.valid b (List.mem_of_getElem? hb)).deleteRecordByKey hk
  refine ⟨⟨m.blockIndex.erase k, m.blocks.set n b'⟩, ?_, rfl, ?_⟩
  · simp only [deleteRecordByNode, getBlock, hb, Option.bind_eq_bind, Option.bind_some, hdel]
    rfl
  · refine h.becomes_set hb hv hd hget (fun k' hk' => AList.lookup_erase_ne hk') ?_ ?_
    · exact AList.lookup_erase k _
    · intro j hj
      rw [hl] at hj
      exact (Option.some.inj hj).symm

/-- `blman_delete_record_by_key` takes the key out of the map. -/
theorem deleteRecordByKey_spec (h : m.Inv) (k : UInt64) :
    ∃ m', m.deleteRecordByKey k = some m'
      ∧ m.Becomes m' (Function.update m.contents k none) := by
  rcases hl : m.blockIndex.lookup k with _ | n
  · refine ⟨m, by rw [deleteRecordByKey, hl], ?_⟩
    rw [Function.update_eq_self_iff.mpr
      (h.contents_eq_none.mpr (AList.lookup_eq_none.mp hl)).symm]
    exact Becomes.refl h
  · obtain ⟨m', hdel, -, hb⟩ := deleteRecordByNode_spec h hl
    exact ⟨m', by rw [deleteRecordByKey, hl]; exact hdel, hb⟩

/-! ## Phase 1: the update -/

/-- The block of `key` has room for `size` bytes in the place of its record. -/
def roomFor (m : Blman) (key : UInt64) (size : ℕ) : Bool :=
  match m.blockIndex.lookup key with
  | none => false
  | some n =>
    match m.blocks[n]? with
    | none => false
    | some b =>
      match b.get key with
      | none => false
      | some old => size ≤ b.getCIDF.m_amoutOfFreeSpace + old.length

/-- Phase 1 stores the record where the key already is, or leaves a manager
without the key. -/
theorem tryUpdate_spec (h : m.Inv) (key : UInt64) (record : List UInt8) :
    ∃ updated m', m.tryUpdate key record = some (updated, m')
      ∧ (updated = true → key ∈ m.blockIndex ∧ m.roomFor key record.length = true
          ∧ m.Becomes m' (Function.update m.contents key (some record)))
      ∧ (updated = false → m.roomFor key record.length = false
          ∧ m'.blockIndex = m.blockIndex.erase key ∧ (key ∉ m.blockIndex → m' = m)
          ∧ m.Becomes m' (Function.update m.contents key none)) := by
  rcases hl : m.blockIndex.lookup key with _ | n
  · have hk : key ∉ m.blockIndex := AList.lookup_eq_none.mp hl
    refine ⟨false, m, by rw [tryUpdate, hl], by simp only [Bool.false_eq_true, false_implies], ?_⟩
    intro _
    refine ⟨by rw [roomFor, hl], (AvlTable.erase_of_notMem hk).symm, fun _ => rfl, ?_⟩
    rw [Function.update_eq_self_iff.mpr (h.contents_eq_none.mpr hk).symm]
    exact Becomes.refl h
  · have hmem : key ∈ m.blockIndex := AList.lookup_isSome.mp (by rw [hl]; rfl)
    have hold : ∀ j, m.blockIndex.lookup key = some j → j = n := by
      intro j hj
      rw [hl] at hj
      exact (Option.some.inj hj).symm
    obtain ⟨b, hb, hk⟩ := (h.index key n).mp hl
    obtain ⟨old, hold'⟩ := Option.ne_none_iff_exists'.mp hk
    obtain ⟨b', hv, hd, ⟨hup, hget, hroom⟩ | ⟨hup, hget, hroom⟩⟩ :=
      (h.valid b (List.mem_of_getElem? hb)).updateRecord hold' record
    · refine ⟨true, ⟨m.blockIndex, m.blocks.set n b'⟩, ?_, ?_, by
        simp only [Bool.true_eq_false, false_implies]⟩
      · simp only [tryUpdate, hl, getBlock, hb, Option.bind_eq_bind, Option.bind_some, hup, if_true,
          setBlock]
        rfl
      · intro _
        refine ⟨hmem, ?_, h.becomes_set hb hv hd hget (fun _ _ => rfl) hl hold⟩
        simp only [roomFor, hl, hb, hold', hroom, decide_true]
    · refine ⟨false, ⟨m.blockIndex.erase key, m.blocks.set n b'⟩, ?_, by
        simp only [Bool.false_eq_true, false_implies], ?_⟩
      · simp only [tryUpdate, hl, getBlock, hb, Option.bind_eq_bind, Option.bind_some, hup, setBlock]
        rfl
      · intro _
        refine ⟨?_, rfl, fun hn => absurd hmem hn, ?_⟩
        · simp only [roomFor, hl, hb, hold', decide_eq_false_iff_not]
          omega
        · refine h.becomes_set hb hv hd hget (fun k hk' => AList.lookup_erase_ne hk') ?_ hold
          exact AList.lookup_erase key _

/-! ## Phase 2: the record limit

What the loop does is a function of the keys in order and of the successive
reads of `RecordLimit`: `evicted` are the keys it removes, `refusedOld` whether
it ends by refusing the record. `i` counts the keys removed so far. -/

def evicted (limit : ℕ → Int) (recordkey : UInt64) : ℕ → List UInt64 → List UInt64
  | _, [] => []
  | i, k :: ks =>
    if countReaches (ks.length + 1) (limit i) ∧ ¬ recordkey < k then
      k :: evicted limit recordkey (i + 1) ks
    else []

def refusedOld (limit : ℕ → Int) (recordkey : UInt64) : ℕ → List UInt64 → Bool
  | _, [] => false
  | i, k :: ks =>
    countReaches (ks.length + 1) (limit i)
      && (decide (recordkey < k) || refusedOld limit recordkey (i + 1) ks)

theorem evicted_prefix (limit : ℕ → Int) (recordkey : UInt64) (ks : List UInt64) (i : ℕ) :
    evicted limit recordkey i ks <+: ks := by
  induction ks generalizing i with
  | nil => exact List.prefix_refl []
  | cons k ks ih =>
    rw [evicted]
    split
    · exact List.cons_prefix_cons.mpr ⟨rfl, ih (i + 1)⟩
    · exact List.nil_prefix

/-- The loop removes `evicted`, the oldest keys first, and leaves as `refusedOld`
says. It can only hang when nothing is left and the limit reads 0. -/
theorem recordLimitLoop_spec (limit : ℕ → Int) (recordkey : UInt64) (ks : List UInt64) :
    ∀ (m : Blman) (i fuel : ℕ), m.Inv → m.blockIndex.inOrder = ks → ks.length < fuel →
      (∃ m', recordLimitLoop limit recordkey fuel i m
            = some (if refusedOld limit recordkey i ks
                then .refused (i + (evicted limit recordkey i ks).length)
                else .passed (i + (evicted limit recordkey i ks).length), m')
          ∧ (evicted limit recordkey i ks = [] → m' = m)
          ∧ m.Becomes m' (m.contents.removeKeys (evicted limit recordkey i ks)))
        ∨ recordLimitLoop limit recordkey fuel i m = none ∧ ∃ j, countReaches 0 (limit j) = true := by
  induction ks with
  | nil =>
    intro m i fuel h hks hfuel
    obtain ⟨fuel, rfl⟩ : ∃ n, fuel = n + 1 := ⟨fuel - 1, by omega⟩
    have hcount : m.blockIndex.count = 0 := by rw [← AvlTable.length_inOrder, hks]; rfl
    have hfirst : m.blockIndex.first = none := by rw [AvlTable.first, hks]; rfl
    rw [recordLimitLoop, hcount]
    by_cases hc : countReaches 0 (limit i)
    · rw [if_pos hc, hfirst]
      exact Or.inr ⟨rfl, i, hc⟩
    · rw [if_neg hc]
      refine Or.inl ⟨m, rfl, fun _ => rfl, ?_⟩
      rw [evicted, RecordMap.removeKeys_nil]
      exact Becomes.refl h
  | cons k ks ih =>
    intro m i fuel h hks hfuel
    obtain ⟨fuel, rfl⟩ : ∃ n, fuel = n + 1 := ⟨fuel - 1, by omega⟩
    have hcount : m.blockIndex.count = ks.length + 1 := by
      rw [← AvlTable.length_inOrder, hks, List.length_cons]
    have hfirst : m.blockIndex.first = some k := by rw [AvlTable.first, hks]; rfl
    rw [recordLimitLoop, hcount]
    by_cases hc : countReaches (ks.length + 1) (limit i)
    · rw [if_pos hc, hfirst]
      by_cases hold : recordkey < k
      · refine Or.inl ⟨m, ?_, fun _ => rfl, ?_⟩
        · simp only [refusedOld, evicted, hc, hold, decide_true, Bool.true_or,
            Bool.and_self, not_true_eq_false, and_false, if_false, if_true, List.length_nil,
            Nat.add_zero]
        · rw [evicted, if_neg (fun hh => hh.2 hold), RecordMap.removeKeys_nil]
          exact Becomes.refl h
      · have hmem : k ∈ m.blockIndex := by
          rw [← AvlTable.mem_inOrder, hks]
          exact List.mem_cons_self
        obtain ⟨n, hl⟩ := Option.isSome_iff_exists.mp (AList.lookup_isSome.mpr hmem)
        obtain ⟨m1, hdel, hidx, hb1⟩ := deleteRecordByNode_spec h hl
        have hks1 : m1.blockIndex.inOrder = ks := by
          rw [hidx, AvlTable.inOrder_erase, hks, List.erase_cons_head]
        have hev : evicted limit recordkey i (k :: ks)
            = k :: evicted limit recordkey (i + 1) ks := if_pos ⟨hc, hold⟩
        have href : refusedOld limit recordkey i (k :: ks)
            = refusedOld limit recordkey (i + 1) ks := by
          simp only [refusedOld, hc, hold, decide_false, Bool.false_or, Bool.true_and]
        have hlen : i + (evicted limit recordkey i (k :: ks)).length
            = i + 1 + (evicted limit recordkey (i + 1) ks).length := by
          rw [hev, List.length_cons]
          omega
        simp only [if_neg hold, hl, Option.bind_eq_bind, Option.bind_some, hdel]
        rcases ih m1 (i + 1) fuel hb1.inv hks1 (by rw [List.length_cons] at hfuel; omega) with
          ⟨m', hloop, -, hb⟩ | ⟨hloop, hj⟩
        · refine Or.inl ⟨m', ?_, ?_, ?_⟩
          · rw [hloop, href, hlen]
          · intro hnil
            rw [hev] at hnil
            cases hnil
          · rw [hev, ← RecordMap.removeKeys_cons, ← hb1.contents]
            exact hb1.trans hb
        · exact Or.inr ⟨hloop, hj⟩
    · have hev : evicted limit recordkey i (k :: ks) = [] := if_neg (fun hh => hc hh.1)
      have href : refusedOld limit recordkey i (k :: ks) = false := by
        rw [refusedOld, Bool.not_eq_true _ |>.mp hc, Bool.false_and]
      rw [if_neg hc]
      refine Or.inl ⟨m, ?_, fun _ => rfl, ?_⟩
      · rw [hev, href]
        rfl
      · rw [hev, RecordMap.removeKeys_nil]
        exact Becomes.refl h

/-- The test in front of the loop. -/
def limitReached (cfg : WriteCfg) (index : AvlTable) : Bool :=
  cfg.EnableRecordLimit && countReaches index.count (cfg.RecordLimit 0)

/-- The keys a write removes because of the record limit. -/
def evictedBy (cfg : WriteCfg) (recordkey : UInt64) (index : AvlTable) : List UInt64 :=
  if limitReached cfg index then
    evicted (fun i => cfg.RecordLimit (i + 1)) recordkey 0 index.inOrder
  else []

/-- A write of a new key is refused as older than the oldest record. -/
def refusedBy (cfg : WriteCfg) (recordkey : UInt64) (index : AvlTable) : Bool :=
  limitReached cfg index
    && refusedOld (fun i => cfg.RecordLimit (i + 1)) recordkey 0 index.inOrder

theorem checkRecordLimit_spec (cfg : WriteCfg) (recordkey : UInt64) (h : m.Inv) :
    (∃ st m', m.checkRecordLimit cfg recordkey = some (st, m')
        ∧ st.oldRecord = refusedBy cfg recordkey m.blockIndex
        ∧ st.reallocatedBlocks = false ∧ st.failRecordTooBig = false
        ∧ (st.needDefrag = true → limitReached cfg m.blockIndex = true
            ∧ cfg.DefragAfterRecordDelete ≤ (evictedBy cfg recordkey m.blockIndex).length)
        ∧ (evictedBy cfg recordkey m.blockIndex = [] → m' = m)
        ∧ m.Becomes m' (m.contents.removeKeys (evictedBy cfg recordkey m.blockIndex)))
      ∨ m.checkRecordLimit cfg recordkey = none ∧ cfg.EnableRecordLimit = true
        ∧ ∃ j, countReaches 0 (cfg.RecordLimit j) = true := by
  rw [checkRecordLimit, refusedBy, evictedBy, ← limitReached]
  by_cases hl : limitReached cfg m.blockIndex
  · rw [if_pos hl, if_pos hl, hl, Bool.true_and]
    rcases recordLimitLoop_spec (fun i => cfg.RecordLimit (i + 1)) recordkey _ m 0
        (m.blockIndex.count + 1) h rfl (by rw [AvlTable.length_inOrder]; omega) with
      ⟨m', hloop, hnil, hb⟩ | ⟨hloop, j, hj⟩
    · simp only [hloop, Option.bind_eq_bind, Option.bind_some, Nat.zero_add]
      rcases hr : refusedOld (fun i => cfg.RecordLimit (i + 1)) recordkey 0 m.blockIndex.inOrder
      · exact Or.inl ⟨_, m', rfl, rfl, rfl, rfl, fun hd => ⟨trivial, of_decide_eq_true hd⟩, hnil, hb⟩
      · refine Or.inl ⟨_, m', rfl, rfl, rfl, rfl, ?_, hnil, hb⟩
        rintro ⟨⟩
    · simp only [hloop, Option.bind_eq_bind, Option.bind_none]
      rw [limitReached, Bool.and_eq_true] at hl
      exact Or.inr ⟨trivial, hl.1, j + 1, hj⟩
  · rw [if_neg hl, if_neg hl, Bool.not_eq_true _ |>.mp hl]
    refine Or.inl ⟨{}, m, rfl, rfl, rfl, rfl, ?_, fun _ => rfl, ?_⟩
    · rintro ⟨⟩
    rw [RecordMap.removeKeys_nil]
    exact Becomes.refl h

/-! ## Phase 3: the search for a block -/

/-- A block appended to a manager, fresh and dirty. -/
theorem Inv.append (h : m.Inv) (hcount : m.blockCount + 1 < 65536) :
    Inv ⟨m.blockIndex, m.blocks ++ [zeroBlock.initBlock]⟩
      ∧ contents ⟨m.blockIndex, m.blocks ++ [zeroBlock.initBlock]⟩ = m.contents := by
  have hinv : Inv ⟨m.blockIndex, m.blocks ++ [zeroBlock.initBlock]⟩ := by
    refine ⟨List.append_ne_nil_of_left_ne_nil h.nonempty _, ?_, ?_, ?_⟩
    · show (m.blocks ++ [zeroBlock.initBlock]).length < 65536
      rw [List.length_append]
      exact hcount
    · intro b hb
      rcases List.mem_append.mp hb with hb | hb
      · exact h.valid b hb
      · rw [List.mem_singleton.mp hb]
        exact Block.initBlock_valid
    · intro k n
      show m.blockIndex.lookup k = some n
        ↔ ∃ b, (m.blocks ++ [zeroBlock.initBlock])[n]? = some b ∧ b.get k ≠ none
      rw [h.index]
      by_cases hn : n < m.blocks.length
      · rw [List.getElem?_append_left hn]
      · rw [List.getElem?_append_right (by omega), List.getElem?_eq_none (by omega)]
        constructor
        · rintro ⟨b, hb, -⟩
          cases hb
        · rintro ⟨b, hb, hk⟩
          rw [List.getElem?_singleton] at hb
          split at hb
          · cases hb
            rw [Block.initBlock_get] at hk
            exact absurd rfl hk
          · cases hb
  refine ⟨hinv, ?_⟩
  funext k
  show (m.blocks ++ [zeroBlock.initBlock]).findSome? (fun b => b.get k) = m.contents k
  rw [List.findSome?_append, List.findSome?_singleton, Block.initBlock_get, Option.or_none]
  rfl

theorem setBlock_self {n : ℕ} {b : Block} (hb : m.blocks[n]? = some b) : m.setBlock n b = m := by
  obtain ⟨hn, rfl⟩ := List.getElem?_eq_some_iff.mp hb
  rw [setBlock, List.set_getElem_self]

/-- The turn of the loop at a block that takes the record. -/
theorem writeLoop_fits {key : UInt64} {record : List UInt8} {n : ℕ} {b b' : Block}
    (hb : m.blocks[n]? = some b) (hn : n < 65536) (fuel : ℕ) (reallocated : Bool)
    (hw : b.writeRecord key record = some (.ok, b')) :
    writeLoop key record (fuel + 1) (n + 1) reallocated m
      = some (reallocated, ⟨m.blockIndex.avlInsert key n, m.blocks.set n b'⟩) := by
  have hu : u16 (((n + 1 : ℕ) : Int) - 1) = n := by
    rw [u16]
    omega
  simp only [writeLoop, hu, getBlock, hb, Option.bind_eq_bind, Option.bind_some, hw, if_true,
    setBlock]
  rfl

/-- The turn at a block without room, above the first. -/
theorem writeLoop_next {key : UInt64} {record : List UInt8} {n : ℕ} {b : Block}
    (hb : m.blocks[n + 1]? = some b) (hn : n + 1 < 65536) (fuel : ℕ) (reallocated : Bool)
    (hw : b.writeRecord key record = some (.noSpaceForNewData, b)) :
    writeLoop key record (fuel + 1) (n + 2) reallocated m
      = writeLoop key record fuel (n + 1) reallocated m := by
  have hu : u16 (((n + 2 : ℕ) : Int) - 1) = n + 1 := by
    rw [u16]
    omega
  have hset : m.setBlock (n + 1) b = m := setBlock_self hb
  rw [writeLoop, hu]
  simp only [getBlock, hb, Option.bind_eq_bind, Option.bind_some, hw, hset, reduceCtorEq,
    if_false, Nat.add_eq_zero_iff, one_ne_zero, and_false, false_and]

/-- The turn at the first block, when it has no room. -/
theorem writeLoop_realloc {key : UInt64} {record : List UInt8} {b : Block}
    (hb : m.blocks[0]? = some b) (fuel : ℕ) (reallocated : Bool)
    (hw : b.writeRecord key record = some (.noSpaceForNewData, b)) :
    writeLoop key record (fuel + 1) 1 reallocated m
      = m.reallocBlocks.bind fun m' => writeLoop key record fuel m'.blockCount true m' := by
  have hu : u16 (((1 : ℕ) : Int) - 1) = 0 := rfl
  have hset : m.setBlock 0 b = m := setBlock_self hb
  rw [writeLoop, hu]
  simp only [getBlock, hb, Option.bind_eq_bind, Option.bind_some, hw, hset, reduceCtorEq,
    if_false, and_self, if_true]

/-- A block that has taken the record of a new key. -/
theorem Inv.becomes_fits (h : m.Inv) {key : UInt64} (record : List UInt8) {n : ℕ} {b b' : Block}
    (hkey : key ∉ m.blockIndex) (hb : m.blocks[n]? = some b) (hv : b'.Valid)
    (hd : b'.isDirty = true) (hget : b'.get = Function.update b.get key (some record)) :
    m.Becomes ⟨m.blockIndex.avlInsert key n, m.blocks.set n b'⟩
      (Function.update m.contents key (some record)) := by
  rw [AvlTable.avlInsert_of_notMem n hkey]
  refine h.becomes_set hb hv hd hget (fun k hk => AList.lookup_insert_ne hk)
    (AList.lookup_insert _) ?_
  intro j hj
  rw [AList.lookup_eq_none.mpr hkey] at hj
  cases hj

/-- A key that the index has not is in no block. -/
theorem Inv.get_eq_none (h : m.Inv) {key : UInt64} (hkey : key ∉ m.blockIndex) {n : ℕ} {b : Block}
    (hb : m.blocks[n]? = some b) : b.get key = none := by
  by_contra hne
  exact hkey (AList.lookup_isSome.mp (by rw [(h.index key n).mpr ⟨b, hb, hne⟩]; rfl))

/-- What a write of a new key leaves behind. -/
structure Stored (m m' : Blman) (key : UInt64) (record : List UInt8) (reallocated : Bool) : Prop
    where
  inv : m'.Inv
  contents : m'.contents = Function.update m.contents key (some record)
  frame : DirtyFrame m.blocks m'.blocks
  count : m'.blockCount = m.blockCount + if reallocated then 1 else 0

/-- The search goes from block `n - 1` down to 0, and on to a fresh block, which
takes any record of a legal size. The induction is on `n`. -/
theorem writeLoop_spec (h : m.Inv) {key : UInt64} {record : List UInt8}
    (hkey : key ∉ m.blockIndex) (hsize : record.length ≤ MAX_RECORD_SIZE) (n : ℕ) :
    ∀ fuel : ℕ, n < m.blockCount → n + 2 ≤ fuel →
      (∃ reallocated m', writeLoop key record fuel (n + 1) false m = some (reallocated, m')
          ∧ Stored m m' key record reallocated)
        ∨ writeLoop key record fuel (n + 1) false m = none ∧ ¬ m.blockCount + 1 < 65536 := by
  have hcount := h.count_lt
  induction n with
  | zero =>
    intro fuel hn hfuel
    obtain ⟨fuel, rfl⟩ : ∃ k, fuel = k + 2 := ⟨fuel - 2, by omega⟩
    obtain ⟨b, hb⟩ : ∃ b, m.blocks[0]? = some b := ⟨_, List.getElem?_eq_getElem hn⟩
    rcases (h.valid b (List.mem_of_getElem? hb)).writeRecord (h.get_eq_none hkey hb) record with
      ⟨b', hw, hv, hd, hget⟩ | ⟨hw, -⟩
    · have hbec := h.becomes_fits record hkey hb hv hd hget
      exact Or.inl ⟨false, _, writeLoop_fits hb (by omega) (fuel + 1) false hw, hbec.inv,
        hbec.contents, hbec.frame, hbec.count⟩
    · rw [writeLoop_realloc hb (fuel + 1) false hw]
      by_cases hlt : m.blockCount + 1 < 65536
      · left
        obtain ⟨hinv1, hc1⟩ := h.append hlt
        obtain ⟨m1, hm1⟩ : ∃ m1 : Blman, m1 = ⟨m.blockIndex, m.blocks ++ [zeroBlock.initBlock]⟩ :=
          ⟨_, rfl⟩
        rw [← hm1] at hinv1 hc1
        have hreal : m.reallocBlocks = some m1 := by rw [reallocBlocks, if_pos hlt, hm1]
        have hlast : m1.blocks[m.blockCount]? = some zeroBlock.initBlock := by
          rw [hm1]
          exact List.getElem?_concat_length
        have hcount1 : m1.blockCount = m.blockCount + 1 := by
          rw [hm1, blockCount, List.length_append]
          rfl
        rcases Block.initBlock_valid.writeRecord (by rw [Block.initBlock_get]) record with
          ⟨b', hw', hv, hd, hget⟩ | ⟨-, hfull⟩
        · have hbec := hinv1.becomes_fits record (by rw [hm1]; exact hkey) hlast hv hd hget
          refine ⟨true, _, ?_, hbec.inv, ?_, ?_, ?_⟩
          · rw [hreal, Option.bind_some, hcount1]
            exact writeLoop_fits hlast (by omega) fuel true hw'
          · rw [hbec.contents, hc1]
          · have hframe1 : DirtyFrame m.blocks m1.blocks := by
              rw [hm1]
              exact DirtyFrame.append Block.initBlock_dirty
            exact hframe1.trans hbec.frame
          · rw [hbec.count, hcount1]
            rfl
        · exfalso
          rw [Block.initBlock_free] at hfull
          simp only [MAX_RECORD_SIZE, CIDFOffset, sizeofRDF, BLOCK_SIZE, sizeofCIDF] at hsize hfull
          omega
      · right
        rw [reallocBlocks, if_neg hlt]
        exact ⟨rfl, hlt⟩
  | succ n ih =>
    intro fuel hn hfuel
    obtain ⟨fuel, rfl⟩ : ∃ k, fuel = k + 1 := ⟨fuel - 1, by omega⟩
    obtain ⟨b, hb⟩ : ∃ b, m.blocks[n + 1]? = some b := ⟨_, List.getElem?_eq_getElem hn⟩
    rcases (h.valid b (List.mem_of_getElem? hb)).writeRecord (h.get_eq_none hkey hb) record with
      ⟨b', hw, hv, hd, hget⟩ | ⟨hw, -⟩
    · have hbec := h.becomes_fits record hkey hb hv hd hget
      exact Or.inl ⟨false, _, writeLoop_fits hb (by omega) fuel false hw, hbec.inv, hbec.contents,
        hbec.frame, hbec.count⟩
    · rw [writeLoop_next hb (by omega) fuel false hw]
      exact ih fuel (by omega) (by omega)

/-! ## The whole write -/

section Write

variable (sh : Shared) (cfg : WriteCfg) (m) (recordkey : UInt64) (record : List UInt8)

/-- The index phase 2 looks at: phase 1 has taken the key out. -/
def indexAfterUpdate : AvlTable := m.blockIndex.erase recordkey

/-- The ways `blman_write_record` can end. -/
inductive Wrote : WriteStatus → Blman → Prop
  /-- Refused for its size; nothing has changed. -/
  | tooBig (hsize : MAX_RECORD_SIZE < record.length) :
    Wrote { failRecordTooBig := true } m
  /-- Stored by phase 1, in the block that already had the key. -/
  | updated (m' : Blman) (hsize : record.length ≤ MAX_RECORD_SIZE)
    (hkey : recordkey ∈ m.blockIndex)
    (hroom : m.roomFor recordkey (compressRecord sh cfg record).length = true)
    (hm : m.Becomes m'
      (Function.update m.contents recordkey (some (compressRecord sh cfg record)))) :
    Wrote {} m'
  /-- Refused by phase 2. The key is gone if it was there, and so are the keys the
  loop removed before it came to a newer one. -/
  | refused (st : WriteStatus) (m' : Blman) (hsize : record.length ≤ MAX_RECORD_SIZE)
    (hst : st.oldRecord = true) (hsmall : st.failRecordTooBig = false)
    (hroom : m.roomFor recordkey (compressRecord sh cfg record).length = false)
    (hold : refusedBy cfg recordkey (m.indexAfterUpdate recordkey) = true)
    (hsame : recordkey ∉ m.blockIndex →
      evictedBy cfg recordkey (m.indexAfterUpdate recordkey) = [] → m' = m)
    (hm : m.Becomes m' (RecordMap.removeKeys (Function.update m.contents recordkey none)
      (evictedBy cfg recordkey (m.indexAfterUpdate recordkey)))) :
    Wrote st m'
  /-- Stored by phase 3, after the keys over the limit were removed. -/
  | stored (st : WriteStatus) (m' : Blman) (hsize : record.length ≤ MAX_RECORD_SIZE)
    (hst : st.oldRecord = false) (hsmall : st.failRecordTooBig = false)
    (hroom : m.roomFor recordkey (compressRecord sh cfg record).length = false)
    (hold : refusedBy cfg recordkey (m.indexAfterUpdate recordkey) = false)
    (hdefrag : st.needDefrag = true →
      limitReached cfg (m.indexAfterUpdate recordkey) = true ∧ cfg.DefragAfterRecordDelete
        ≤ (evictedBy cfg recordkey (m.indexAfterUpdate recordkey)).length)
    (hinv : m'.Inv)
    (hcontents : m'.contents = Function.update
      (RecordMap.removeKeys (Function.update m.contents recordkey none)
        (evictedBy cfg recordkey (m.indexAfterUpdate recordkey)))
      recordkey (some (compressRecord sh cfg record)))
    (hframe : DirtyFrame m.blocks m'.blocks)
    (hcount : m'.blockCount = m.blockCount + if st.reallocatedBlocks then 1 else 0) :
    Wrote st m'

theorem length_compressRecord : (compressRecord sh cfg record).length ≤ record.length := by
  rw [compressRecord]
  split
  · split
    · split
      · omega
      · exact Nat.le_refl _
    · exact Nat.le_refl _
  · exact Nat.le_refl _

/-- A call ends in one of the ways of `Wrote`, or not at all; the latter only
when the loop of phase 2 spins on a limit of 0, or the block counter would wrap. -/
theorem writeRecord_spec (h : m.Inv) :
    (∃ st m', m.writeRecord sh cfg recordkey record = some (st, m')
        ∧ m.Wrote sh cfg recordkey record st m')
      ∨ m.writeRecord sh cfg recordkey record = none
        ∧ ((cfg.EnableRecordLimit = true ∧ ∃ j, countReaches 0 (cfg.RecordLimit j) = true)
          ∨ ¬ m.blockCount + 1 < 65536) := by
  rw [writeRecord]
  by_cases hbig : MAX_RECORD_SIZE < record.length
  · rw [if_pos hbig]
    exact Or.inl ⟨_, m, rfl, .tooBig hbig⟩
  rw [if_neg hbig]
  have hsize : record.length ≤ MAX_RECORD_SIZE := by omega
  have hsize' := Nat.le_trans (length_compressRecord sh cfg record) hsize
  obtain ⟨updated, m1, hup, hin, hout⟩ := tryUpdate_spec h recordkey (compressRecord sh cfg record)
  simp only [hup, Option.bind_eq_bind, Option.bind_some, Option.pure_def]
  cases updated with
  | true =>
    obtain ⟨hkey, hroom, hb⟩ := hin rfl
    exact Or.inl ⟨_, m1, rfl, .updated m1 hsize hkey hroom hb⟩
  | false =>
    obtain ⟨hroom, hidx, hsame1, hb1⟩ := hout rfl
    have hkey1 : recordkey ∉ m1.blockIndex := by
      rw [← hb1.inv.contents_eq_none, hb1.contents, Function.update_self]
    rcases checkRecordLimit_spec cfg recordkey hb1.inv with
      ⟨st, m2, hlim, hst, hre, hsmall, hdefrag, hsame2, hb2⟩ | ⟨hlim, hen, hj⟩
    · rw [hidx] at hst hdefrag hsame2 hb2
      rw [hb1.contents] at hb2
      simp only [hlim, Option.bind_some, Bool.false_eq_true, if_false]
      rcases hold : st.oldRecord with _ | _
      · have hkey2 : recordkey ∉ m2.blockIndex := by
          rw [← hb2.inv.contents_eq_none, hb2.contents, RecordMap.removeKeys]
          split
          · rfl
          · exact Function.update_self _ _ _
        have hpos : 0 < m2.blockCount := List.length_pos_of_ne_nil hb2.inv.nonempty
        have hcount2 : m2.blockCount = m.blockCount := hb2.count.trans hb1.count
        obtain ⟨n, hn⟩ : ∃ n, m2.blockCount = n + 1 := ⟨m2.blockCount - 1, by omega⟩
        rcases writeLoop_spec hb2.inv hkey2 hsize' n (m2.blockCount + 2) (by omega) (by omega) with
          ⟨reallocated, m3, hloop, hs⟩ | ⟨hloop, hwrap⟩
        · left
          rw [← hn] at hloop
          simp only [hloop, Bool.false_eq_true, if_false, Option.bind_some]
          refine ⟨_, m3, rfl, ?_⟩
          refine .stored _ m3 hsize rfl hsmall hroom (hst.symm.trans hold) hdefrag hs.inv ?_
            ((hb1.frame.trans hb2.frame).trans hs.frame) ?_
          · rw [hs.contents, hb2.contents]
            rfl
          · rw [hs.count, hcount2]
        · right
          rw [← hn] at hloop
          simp only [hloop, Bool.false_eq_true, if_false, Option.bind_none, true_and]
          exact Or.inr (hcount2 ▸ hwrap)
      · left
        simp only [if_true]
        refine ⟨st, m2, rfl, .refused st m2 hsize hold hsmall hroom (hst.symm.trans hold) ?_
          (hb1.trans hb2)⟩
        intro hnew hev
        rw [hsame2 hev, hsame1 hnew]
    · simp only [hlim, Option.bind_none, Bool.false_eq_true, if_false]
      exact Or.inr ⟨trivial, Or.inl ⟨hen, hj⟩⟩

variable {sh cfg m recordkey record}

/-- Inversion of a call that returns. -/
theorem writeRecord_cases (h : m.Inv) {st : WriteStatus} {m' : Blman}
    (hw : m.writeRecord sh cfg recordkey record = some (st, m')) :
    m.Wrote sh cfg recordkey record st m' := by
  rcases writeRecord_spec m sh cfg recordkey record h with ⟨st', m'', hw', hr⟩ | ⟨hw', -⟩
  · rw [hw] at hw'
    cases hw'
    exact hr
  · rw [hw] at hw'
    cases hw'

/-- What phase 2 leaves for phase 3 to say. -/
theorem checkRecordLimit_status {st : WriteStatus} {m' : Blman}
    (hlim : m.checkRecordLimit cfg recordkey = some (st, m')) :
    st.failRecordTooBig = false ∧ st.reallocatedBlocks = false := by
  rw [checkRecordLimit] at hlim
  split at hlim
  case isTrue =>
    obtain ⟨⟨exit, m1⟩, -, hlim⟩ := Option.bind_eq_some_iff.mp hlim
    cases exit with
    | refused removedRecords =>
      cases hlim
      exact ⟨rfl, rfl⟩
    | passed removedRecords =>
      cases hlim
      exact ⟨rfl, rfl⟩
  case isFalse =>
    cases hlim
    exact ⟨rfl, rfl⟩

/-- The status of a call, for any manager: a record that is too big changes nothing, and one
that is refused as old has come to no block. -/
theorem writeRecord_status {st : WriteStatus} {m' : Blman}
    (hw : m.writeRecord sh cfg recordkey record = some (st, m')) :
    MAX_RECORD_SIZE < record.length ∧ st.failRecordTooBig = true ∧ st.oldRecord = false ∧ m' = m
      ∨ record.length ≤ MAX_RECORD_SIZE ∧ st.failRecordTooBig = false
        ∧ (st.oldRecord = true → st.reallocatedBlocks = false) := by
  rw [writeRecord] at hw
  by_cases hbig : MAX_RECORD_SIZE < record.length
  · rw [if_pos hbig] at hw
    cases hw
    exact Or.inl ⟨hbig, rfl, rfl, rfl⟩
  rw [if_neg hbig] at hw
  have hsize := Nat.not_lt.mp hbig
  obtain ⟨⟨updated, m1⟩, -, hw⟩ := Option.bind_eq_some_iff.mp hw
  cases updated with
  | true =>
    cases hw
    exact Or.inr ⟨hsize, rfl, fun _ => rfl⟩
  | false =>
    obtain ⟨⟨st1, m2⟩, hlim, hw⟩ := Option.bind_eq_some_iff.mp hw
    obtain ⟨hsmall, hre⟩ := checkRecordLimit_status hlim
    dsimp only at hw
    by_cases hold : st1.oldRecord = true
    · rw [if_pos hold] at hw
      cases hw
      exact Or.inr ⟨hsize, hsmall, fun _ => hre⟩
    · rw [if_neg hold] at hw
      obtain ⟨⟨reallocated, m3⟩, -, hw⟩ := Option.bind_eq_some_iff.mp hw
      cases hw
      exact Or.inr ⟨hsize, hsmall, fun hh => absurd hh hold⟩

namespace Wrote

variable {st : WriteStatus} {m' : Blman}

theorem inv (h : m.Inv) (hw : m.Wrote sh cfg recordkey record st m') : m'.Inv := by
  cases hw with
  | tooBig _ => exact h
  | updated _ _ _ _ hm => exact hm.inv
  | refused _ _ _ _ _ _ _ _ hm => exact hm.inv
  | stored _ _ _ _ _ _ _ _ hinv _ _ _ => exact hinv

theorem frame (hw : m.Wrote sh cfg recordkey record st m') : DirtyFrame m.blocks m'.blocks := by
  cases hw with
  | tooBig _ => exact DirtyFrame.refl _
  | updated _ _ _ _ hm => exact hm.frame
  | refused _ _ _ _ _ _ _ _ hm => exact hm.frame
  | stored _ _ _ _ _ _ _ _ _ _ hframe _ => exact hframe

theorem count (hw : m.Wrote sh cfg recordkey record st m') (hre : st.reallocatedBlocks = false) :
    m'.blockCount = m.blockCount := by
  cases hw with
  | tooBig _ => rfl
  | updated _ _ _ _ hm => exact hm.count
  | refused _ _ _ _ _ _ _ _ hm => exact hm.count
  | stored _ _ _ _ _ _ _ _ _ _ _ hcount => rw [hcount, hre]; rfl

end Wrote

end Write

end Blman

end TransDB
