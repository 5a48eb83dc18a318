/-
A block manager over a whole run.

`Reachable` are the managers that writes and deletes lead to from a new one.
`RefinesMap` is what such a manager promises: its blocks hold every key once,
its index knows where, and the next operation is the corresponding operation on
the map.
-/
import TransDB.BlockManagerOps

set_option autoImplicit false

namespace TransDB

open ByteList Record

namespace Blman

/-- What a write may read as its record limit: off, or a positive `int`. -/
def LimitOk (cfg : WriteCfg) : Prop :=
  cfg.EnableRecordLimit = false ∨ ∀ i, 1 ≤ cfg.RecordLimit i ∧ cfg.RecordLimit i < 2 ^ 31

theorem LimitOk.not_zero {cfg : WriteCfg} (h : LimitOk cfg) (hen : cfg.EnableRecordLimit = true)
    (i : ℕ) : countReaches 0 (cfg.RecordLimit i) = false := by
  rcases h with h | h
  · rw [hen] at h
    cases h
  · obtain ⟨hpos, hlt⟩ := h i
    simp only [countReaches, Nat.le_zero_eq, decide_eq_false_iff_not]
    rw [Int.emod_eq_of_lt (by omega) (by omega)]
    omega

/-- A new manager: one empty block. -/
theorem create_none : ∃ m, create none = some m ∧ m.Inv ∧ m.contents = fun _ => none := by
  have hget : ∀ k, contentsOf [zeroBlock.initBlock] k = none := by
    intro k
    rw [contentsOf, List.findSome?_singleton, Block.initBlock_get]
  refine ⟨⟨∅, [zeroBlock.initBlock]⟩, rfl, ⟨List.cons_ne_nil _ _, ?_, ?_, ?_⟩, funext hget⟩
  · show 1 < 65536
    omega
  · intro b hb
    rw [List.mem_singleton.mp hb]
    exact Block.initBlock_valid
  · intro k n
    rw [AList.lookup_empty]
    constructor
    · rintro ⟨⟩
    · rintro ⟨b, hb, hk⟩
      rw [List.getElem?_singleton] at hb
      split at hb
      · cases hb
        rw [Block.initBlock_get] at hk
        exact absurd rfl hk
      · cases hb

/-- The managers of a run that starts with `blman_create(NULL, 0)` and in which
`blockCount` stays below 65535. -/
inductive Reachable (sh : Shared) : Blman → Prop
  | create (m : Blman) (h : create none = some m) : Reachable sh m
  | write (m m' : Blman) (cfg : WriteCfg) (recordkey : UInt64) (record : List UInt8)
    (st : WriteStatus) (hm : Reachable sh m) (hcfg : LimitOk cfg)
    (hw : m.writeRecord sh cfg recordkey record = some (st, m'))
    (hcount : m'.blockCount < 65535) : Reachable sh m'
  | delete (m m' : Blman) (recordkey : UInt64) (hm : Reachable sh m)
    (hd : m.deleteRecordByKey recordkey = some m') : Reachable sh m'

theorem Reachable.inv {sh : Shared} {m : Blman} (h : Reachable sh m) :
    m.Inv ∧ m.blockCount < 65535 := by
  induction h with
  | create m h =>
    obtain ⟨m', hm', hinv, -⟩ := create_none
    rw [h] at hm'
    cases hm'
    refine ⟨hinv, ?_⟩
    have hm : m = ⟨∅, [zeroBlock.initBlock]⟩ := Option.some.inj (h.symm.trans rfl)
    rw [hm]
    show 1 < 65535
    omega
  | write m m' cfg recordkey record st _ _ hw hcount ih =>
    exact ⟨(writeRecord_cases ih.1 hw).inv ih.1, hcount⟩
  | delete m m' recordkey _ hd ih =>
    obtain ⟨m'', hd', hb⟩ := deleteRecordByKey_spec ih.1 recordkey
    rw [hd] at hd'
    cases hd'
    exact ⟨hb.inv, by rw [hb.count]; exact ih.2⟩

/-! ## The map -/

/-- The keys of all RDFs of all blocks. -/
def allKeys (m : Blman) : List UInt64 := m.blocks.flatMap fun b => keys b.records

theorem Inv.mem_allKeys {m : Blman} (h : m.Inv) {k : UInt64} :
    k ∈ m.allKeys ↔ m.contents k ≠ none := by
  rw [h.contents_ne_none, ← AList.lookup_isSome, Option.isSome_iff_exists, allKeys,
    List.mem_flatMap]
  constructor
  · rintro ⟨b, hb, hk⟩
    obtain ⟨n, hn⟩ := List.mem_iff_getElem?.mp hb
    exact ⟨n, (h.index k n).mpr ⟨b, hn, Block.mem_keys_iff.mp hk⟩⟩
  · rintro ⟨n, hn⟩
    obtain ⟨b, hb, hk⟩ := (h.index k n).mp hn
    exact ⟨b, List.mem_of_getElem? hb, Block.mem_keys_iff.mpr hk⟩

/-- No key has two RDFs, in one block or in two. -/
theorem Inv.allKeys_nodup {m : Blman} (h : m.Inv) : m.allKeys.Nodup := by
  rw [allKeys, List.nodup_flatMap]
  refine ⟨fun b hb => (h.valid b hb).nodup, ?_⟩
  rw [List.pairwise_iff_getElem]
  intro i j hi hj hij k hki hkj
  have hn := h.sound.unique k i j m.blocks[i] m.blocks[j] (List.getElem?_eq_getElem hi)
    (List.getElem?_eq_getElem hj) (Block.mem_keys_iff.mp hki) (Block.mem_keys_iff.mp hkj)
  omega

/-- The keys a write removes besides its own: none when it can be stored where
the key is, else those over the record limit. -/
def removedKeys (sh : Shared) (cfg : WriteCfg) (m : Blman) (recordkey : UInt64)
    (record : List UInt8) : List UInt64 :=
  if m.roomFor recordkey (compressRecord sh cfg record).length then []
  else evictedBy cfg recordkey (m.indexAfterUpdate recordkey)

/-- The manager stands for a finite map, and its operations for those on the map. -/
structure RefinesMap (sh : Shared) (m : Blman) : Prop where
  /-- All blocks are well formed. -/
  valid : ∀ b ∈ m.blocks, b.Valid
  /-- A key of the map has one RDF in all the blocks, any other key none. -/
  one_rdf : ∀ k, m.allKeys.count k = if m.contents k = none then 0 else 1
  /-- The index sends exactly these keys to the block that has them. -/
  index : ∀ (k : UInt64) (n : ℕ), m.blockIndex.lookup k = some n ↔
    ∃ b, m.blocks[n]? = some b ∧ k ∈ keys b.records
  /-- A write returns; one that is not refused binds the key to the stored form
  of the record, and the keys the limit loop removed are gone. -/
  write : ∀ (cfg : WriteCfg) (recordkey : UInt64) (record : List UInt8), LimitOk cfg →
    ∃ st m', m.writeRecord sh cfg recordkey record = some (st, m')
      ∧ (st.failRecordTooBig = false → st.oldRecord = false →
        m'.contents = Function.update
          (m.contents.removeKeys (removedKeys sh cfg m recordkey record)) recordkey
          (some (compressRecord sh cfg record)))
  /-- A delete returns and takes the key out. -/
  delete : ∀ recordkey, ∃ m', m.deleteRecordByKey recordkey = some m'
    ∧ m'.contents = Function.update m.contents recordkey none
  /-- `blman_get_all_record_keys` lists the domain, each key once. -/
  all_keys : m.getAllRecordKeys.Nodup ∧ ∀ k, k ∈ m.getAllRecordKeys ↔ m.contents k ≠ none

theorem update_removeKeys_update (f : RecordMap) (key : UInt64) (ks : List UInt64)
    (v w : Option (List UInt8)) :
    Function.update (RecordMap.removeKeys (Function.update f key v) ks) key w
      = Function.update (f.removeKeys ks) key w := by
  funext k
  by_cases hk : k = key
  · subst hk
    rw [Function.update_self, Function.update_self]
  · rw [Function.update_of_ne hk, Function.update_of_ne hk, RecordMap.removeKeys,
      RecordMap.removeKeys, Function.update_of_ne hk]

/-- What a write that is not refused does to the map. -/
theorem Wrote.contents {sh : Shared} {cfg : WriteCfg} {m m' : Blman} {recordkey : UInt64}
    {record : List UInt8} {st : WriteStatus} (hw : m.Wrote sh cfg recordkey record st m')
    (hsmall : st.failRecordTooBig = false) (hnew : st.oldRecord = false) :
    m'.contents = Function.update
      (m.contents.removeKeys (removedKeys sh cfg m recordkey record)) recordkey
      (some (compressRecord sh cfg record)) := by
  cases hw with
  | tooBig _ => cases hsmall
  | updated _ _ _ hroom hm =>
    rw [hm.contents, removedKeys, if_pos hroom, RecordMap.removeKeys_nil]
  | refused _ _ _ hst _ _ _ _ _ =>
    rw [hnew] at hst
    cases hst
  | stored _ _ _ _ _ hroom _ _ _ hcontents _ _ =>
    rw [hcontents, removedKeys, hroom, update_removeKeys_update]
    rfl

/-- Below the range of the block counter every write returns. -/
theorem Reachable.write_returns {sh : Shared} {m : Blman} (h : Reachable sh m) {cfg : WriteCfg}
    (hcfg : LimitOk cfg) (recordkey : UInt64) (record : List UInt8) :
    ∃ st m', m.writeRecord sh cfg recordkey record = some (st, m')
      ∧ m.Wrote sh cfg recordkey record st m' := by
  obtain ⟨hinv, hcount⟩ := h.inv
  rcases writeRecord_spec m sh cfg recordkey record hinv with hreturns | ⟨-, ⟨hen, j, hj⟩ | hwrap⟩
  · exact hreturns
  · rw [hcfg.not_zero hen j] at hj
    cases hj
  · omega

/-- **The block manager refines a finite map**, over every run of writes and
deletes that stays below the range of the block counter. -/
theorem blman_refines_map {sh : Shared} {m : Blman} (h : Reachable sh m) : RefinesMap sh m := by
  have hinv := h.inv.1
  refine ⟨hinv.valid, ?_, ?_, ?_, ?_, ?_, ?_⟩
  · intro k
    by_cases hk : m.contents k = none
    · rw [if_pos hk, List.count_eq_zero, hinv.mem_allKeys, Classical.not_not]
      exact hk
    · rw [if_neg hk]
      exact List.count_eq_one_of_mem hinv.allKeys_nodup (hinv.mem_allKeys.mpr hk)
  · intro k n
    simp only [Block.mem_keys_iff]
    exact hinv.index k n
  · intro cfg recordkey record hcfg
    obtain ⟨st, m', hw, hwrote⟩ := h.write_returns hcfg recordkey record
    exact ⟨st, m', hw, fun hsmall hnew => hwrote.contents hsmall hnew⟩
  · intro recordkey
    obtain ⟨m', hd, hb⟩ := deleteRecordByKey_spec hinv recordkey
    exact ⟨m', hd, hb.contents⟩
  · exact m.blockIndex.inOrder_nodup
  · intro k
    exact AvlTable.mem_inOrder.trans hinv.contents_ne_none.symm

/-- With the limit off, a record written to a new manager and deleted again. -/
theorem blman_refines_map_delete :
    ∃ m0 st m1 m2, create none = some m0
      ∧ m0.writeRecord Shared.plain ⟨256, 5, false, fun _ => 1000, 5⟩ 7 [1, 2, 3] = some (st, m1)
      ∧ m1.deleteRecordByKey 7 = some m2 ∧ RefinesMap Shared.plain m2 := by
  obtain ⟨m0, h0, hinv0, -⟩ := create_none
  have hr0 : Reachable Shared.plain m0 := .create m0 h0
  have hcfg : LimitOk ⟨256, 5, false, fun _ => 1000, 5⟩ := Or.inl rfl
  obtain ⟨st, m1, hw, -⟩ := (blman_refines_map hr0).write _ 7 [1, 2, 3] hcfg
  have hm0 : m0.blockCount = 1 := by
    rw [← Option.some.inj (Eq.trans rfl h0)]
    rfl
  have hcount : m1.blockCount < 65535 := by
    cases writeRecord_cases hinv0 hw with
    | tooBig _ => omega
    | updated _ _ _ _ hm => rw [hm.count]; omega
    | refused _ _ _ _ _ _ _ _ hm => rw [hm.count]; omega
    | stored _ _ _ _ _ _ _ _ _ _ _ hcount => rw [hcount, hm0]; split <;> omega
  have hr1 : Reachable Shared.plain m1 := .write m0 m1 _ 7 [1, 2, 3] st hr0 hcfg hw hcount
  obtain ⟨m2, hd, -⟩ := (blman_refines_map hr1).delete 7
  exact ⟨m0, st, m1, m2, h0, hw, hd, blman_refines_map (.delete m1 m2 7 hr1 hd)⟩

end Blman

end TransDB
