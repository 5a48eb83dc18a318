/-
What a block manager is for: a finite map from record key to stored bytes.

The map is read off the blocks alone (`contentsOf`). The invariant `Inv` ties
the three representations together: every block is well formed, and the block
index sends a key to a block number exactly when that block holds the key, so
no key is in two blocks. Each operation of `BlockManager.c` is then one update
of the map, and `Inv.set` is the only place where the invariant is re-proved:
an operation on one key changes one block, at that key.

Beside the map each operation says which blocks it may change without marking
them dirty: none (`DirtyFrame`). The disk writer depends on it.
-/
import TransDB.BlockLayout
import TransDB.BlockManager
import Mathlib.Data.List.Perm.Basic
import Mathlib.Logic.Function.Basic

set_option autoImplicit false

namespace TransDB

open ByteList Record

/-! ## The order of the block index

`blockindex_cmp` compares the bytes of the keys as they lie in memory. All that
matters is that it is a total order, so that the keys have one sorted list and
removing the first key leaves the rest of it. -/

theorem memcmp_total (a b : List UInt8) (h : memcmp a b = .gt) : memcmp b a ≠ .gt := by
  induction a generalizing b with
  | nil => cases h
  | cons x a ih =>
    cases b with
    | nil => cases h
    | cons y b =>
      rw [memcmp] at h ⊢
      by_cases hxy : x < y
      · rw [if_pos hxy] at h
        cases h
      · rw [if_neg hxy] at h
        by_cases hyx : y < x
        · rw [if_pos hyx]
          rintro ⟨⟩
        · rw [if_neg hyx] at h ⊢
          rw [if_neg hxy]
          exact ih b h

theorem memcmp_antisymm (a b : List UInt8) (hl : a.length = b.length) (hab : memcmp a b ≠ .gt)
    (hba : memcmp b a ≠ .gt) : a = b := by
  induction a generalizing b with
  | nil => exact (List.eq_nil_of_length_eq_zero hl.symm).symm
  | cons x a ih =>
    cases b with
    | nil => cases hl
    | cons y b =>
      rw [memcmp] at hab hba
      by_cases hxy : x < y
      · have hyx : ¬ y < x := by
          rw [UInt8.lt_iff_toNat_lt] at hxy ⊢
          omega
        rw [if_neg hyx, if_pos hxy] at hba
        exact absurd rfl hba
      · rw [if_neg hxy] at hab
        by_cases hyx : y < x
        · rw [if_pos hyx] at hab
          exact absurd rfl hab
        · rw [if_neg hyx] at hab hba
          rw [if_neg hxy] at hba
          have hx : x = y := by
            apply UInt8.toNat_inj.mp
            rw [UInt8.lt_iff_toNat_lt] at hxy hyx
            omega
          rw [hx, ih b (Nat.succ.inj hl) hab hba]

theorem memcmp_trans (a b c : List UInt8) (hl : a.length = b.length) (hl' : b.length = c.length)
    (hab : memcmp a b ≠ .gt) (hbc : memcmp b c ≠ .gt) : memcmp a c ≠ .gt := by
  induction a generalizing b c with
  | nil => rintro ⟨⟩
  | cons x a ih =>
    cases b with
    | nil => cases hl
    | cons y b =>
      cases c with
      | nil => cases hl'
      | cons z c =>
        have ih' := ih b c (Nat.succ.inj hl) (Nat.succ.inj hl')
        simp only [memcmp, UInt8.lt_iff_toNat_lt] at hab hbc ⊢
        rcases Nat.lt_trichotomy x.toNat y.toNat with hxy | hxy | hxy
        · by_cases hzy : z.toNat < y.toNat
          · rw [if_neg (by omega), if_pos hzy] at hbc
            exact absurd rfl hbc
          · rw [if_pos (by omega)]
            rintro ⟨⟩
        · rw [hxy]
          rw [if_neg (by omega), if_neg (by omega)] at hab
          by_cases hyz : y.toNat < z.toNat
          · rw [if_pos hyz]
            rintro ⟨⟩
          · rw [if_neg hyz] at hbc ⊢
            by_cases hzy : z.toNat < y.toNat
            · rw [if_pos hzy] at hbc
              exact absurd rfl hbc
            · rw [if_neg hzy] at hbc ⊢
              exact ih' hab hbc
        · rw [if_neg (by omega), if_pos hxy] at hab
          exact absurd rfl hab

/-- `a` comes before `b`, or is `b`, in the order of the index. -/
def blockindex_le (a b : UInt64) : Prop := blockindex_cmp a b ≠ .gt

instance : DecidableRel blockindex_le := fun _ _ => inferInstanceAs (Decidable (_ ≠ _))

instance : Std.Total blockindex_le where
  total := by
    intro a b
    by_cases h : blockindex_cmp a b = .gt
    · exact Or.inr (memcmp_total _ _ h)
    · exact Or.inl h

instance : Std.Antisymm blockindex_le where
  antisymm := by
    intro a b hab hba
    have hl : (toLE 8 a.toNat).length = (toLE 8 b.toNat).length := by
      rw [length_toLE, length_toLE]
    exact UInt64.toNat_inj.mp
      (toLE_inj a.toNat_lt b.toNat_lt (memcmp_antisymm _ _ hl hab hba))

instance : IsTrans UInt64 blockindex_le where
  trans := by
    intro a b c hab hbc
    refine memcmp_trans _ _ _ ?_ ?_ hab hbc
    · rw [length_toLE, length_toLE]
    · rw [length_toLE, length_toLE]

namespace AvlTable

theorem inOrder_eq (t : AvlTable) : t.inOrder = t.keys.insertionSort blockindex_le := rfl

theorem inOrder_perm (t : AvlTable) : t.inOrder.Perm t.keys := List.perm_insertionSort _ _

theorem mem_inOrder {t : AvlTable} {k : UInt64} : k ∈ t.inOrder ↔ k ∈ t :=
  t.inOrder_perm.mem_iff.trans AList.mem_keys.symm

theorem inOrder_nodup (t : AvlTable) : t.inOrder.Nodup :=
  t.inOrder_perm.nodup_iff.mpr t.keys_nodup

theorem inOrder_sorted (t : AvlTable) : t.inOrder.Pairwise blockindex_le := by
  rw [inOrder_eq]
  exact List.pairwise_insertionSort _ _

theorem length_inOrder (t : AvlTable) : t.inOrder.length = t.count := by
  rw [t.inOrder_perm.length_eq, count, AList.keys, List.keys, List.length_map]

/-- The order of the traversal is determined by the keys. -/
theorem inOrder_unique {t : AvlTable} {ks : List UInt64} (hperm : t.inOrder.Perm ks)
    (hks : ks.Pairwise blockindex_le) : t.inOrder = ks :=
  hperm.eq_of_pairwise (fun a b _ _ => Std.Antisymm.antisymm a b) t.inOrder_sorted hks

/-- Removing a key takes it out of the traversal. -/
theorem inOrder_erase (t : AvlTable) (k : UInt64) : inOrder (t.erase k) = t.inOrder.erase k := by
  have hsub : (t.inOrder.erase k).Pairwise blockindex_le :=
    t.inOrder_sorted.sublist List.erase_sublist
  have hperm : (inOrder (t.erase k)).Perm (t.inOrder.erase k) := by
    refine (inOrder_perm _).trans ?_
    rw [AList.keys_erase]
    exact (t.inOrder_perm.erase k).symm
  exact inOrder_unique hperm hsub

end AvlTable

/-! ## A block as a map -/

/-- A finite map from record key to stored bytes. -/
abbrev RecordMap := UInt64 → Option (List UInt8)

namespace Record

/-- What a list of records says about a key. -/
def find (recs : List Record) : RecordMap := fun k =>
  (recs.find? fun r => r.key = k).map Record.data

theorem find_append (p q : List Record) (k : UInt64) :
    find (p ++ q) k = (find p k).or (find q k) := by
  rw [find, find, find, List.find?_append]
  cases List.find? (fun r => decide (r.key = k)) p <;> rfl

theorem find_cons_self (r : Record) (recs : List Record) : find (r :: recs) r.key = some r.data := by
  rw [find, List.find?_cons_of_pos (by simp only [decide_true]), Option.map_some]

theorem find_cons_ne {r : Record} {k : UInt64} (recs : List Record) (h : k ≠ r.key) :
    find (r :: recs) k = find recs k := by
  rw [find, List.find?_cons_of_neg (by simpa only [decide_eq_true_eq] using h.symm), find]

theorem find_eq_none {recs : List Record} {k : UInt64} : find recs k = none ↔ k ∉ keys recs := by
  rw [find, Option.map_eq_none_iff, List.find?_eq_none, keys, List.mem_map]
  simp only [decide_eq_true_eq, not_exists, not_and]

theorem find_middle {pre post : List Record} {r : Record} (h : (keys (pre ++ r :: post)).Nodup) :
    find (pre ++ r :: post) r.key = some r.data := by
  rw [keys, List.map_append, List.map_cons] at h
  have hr : r.key ∉ keys pre := fun hr => (List.nodup_append.mp h).2.2 _ hr _ List.mem_cons_self rfl
  rw [find_append, find_eq_none.mpr hr, find_cons_self, Option.none_or]

/-- The records of another key do not see the record. -/
theorem find_middle_ne {r : Record} {k : UInt64} (pre post : List Record) (h : k ≠ r.key) :
    find (pre ++ r :: post) k = find (pre ++ post) k := by
  rw [find_append, find_append, find_cons_ne post h]

theorem find_erase {pre post : List Record} {r : Record} (h : (keys (pre ++ r :: post)).Nodup) :
    find (pre ++ post) = Function.update (find (pre ++ r :: post)) r.key none := by
  funext k
  by_cases hk : k = r.key
  · subst hk
    rw [Function.update_self, find_eq_none, keys, List.map_append]
    rw [keys, List.map_append, List.map_cons, List.nodup_middle, List.nodup_cons] at h
    exact h.1
  · rw [Function.update_of_ne hk, find_middle_ne pre post hk]

theorem find_replace {pre post : List Record} {r : Record} (data : List UInt8)
    (h : (keys (pre ++ r :: post)).Nodup) : find (pre ++ ⟨r.key, data⟩ :: post)
      = Function.update (find (pre ++ r :: post)) r.key (some data) := by
  funext k
  by_cases hk : k = r.key
  · subst hk
    rw [Function.update_self]
    refine find_middle (r := ⟨r.key, data⟩) ?_
    rw [keys, List.map_append, List.map_cons] at h ⊢
    exact h
  · have hk' : k ≠ (⟨r.key, data⟩ : Record).key := hk
    rw [Function.update_of_ne hk, find_middle_ne pre post hk, find_middle_ne pre post hk']

theorem find_add {recs : List Record} {k : UInt64} (data : List UInt8) (h : k ∉ keys recs) :
    find (recs ++ [⟨k, data⟩]) = Function.update (find recs) k (some data) := by
  funext k'
  by_cases hk : k' = k
  · subst hk
    rw [Function.update_self, find_append, find_eq_none.mpr h, Option.none_or]
    exact find_cons_self ⟨k', data⟩ []
  · rw [Function.update_of_ne hk, find_append, find_cons_ne [] hk]
    exact Option.or_none

end Record

namespace Block

/-- A well-formed block: it holds what its own reader reads. -/
def Valid (b : Block) : Prop := b.Holds b.records

/-- What the block says about a key. -/
def get (b : Block) : RecordMap := Record.find b.records

theorem Holds.valid {b : Block} {recs : List Record} (h : b.Holds recs) : b.Valid := by
  rw [Valid, h.records_eq]
  exact h

theorem Holds.get_eq {b : Block} {recs : List Record} (h : b.Holds recs) :
    b.get = Record.find recs := by
  rw [get, h.records_eq]

theorem mem_keys_iff {b : Block} {k : UInt64} : k ∈ keys b.records ↔ b.get k ≠ none := by
  rw [get, Ne, find_eq_none, Classical.not_not]

/-- A key the block has splits its records. -/
theorem exists_split {b : Block} {k : UInt64} (h : b.get k ≠ none) :
    ∃ pre r post, b.records = pre ++ r :: post ∧ r.key = k := by
  obtain ⟨r, hr, hk⟩ := List.mem_map.mp (mem_keys_iff.mpr h)
  obtain ⟨pre, post, hs⟩ := List.append_of_mem hr
  exact ⟨pre, r, post, hs, hk⟩

namespace Valid

variable {b : Block} {k : UInt64}

theorem deleteRecordByKey (hb : b.Valid) (hk : b.get k ≠ none) :
    ∃ b', b.deleteRecordByKey k = some (.ok, b') ∧ b'.Valid ∧ b'.isDirty = true
      ∧ b'.get = Function.update b.get k none := by
  obtain ⟨pre, r, post, hs, rfl⟩ := exists_split hk
  have hh : b.Holds (pre ++ r :: post) := hs ▸ hb
  obtain ⟨b', hdel, hh', hd⟩ := hh.deleteRecordByKey
  refine ⟨b', hdel, hh'.valid, hd, ?_⟩
  rw [hh'.get_eq, hh.get_eq, find_erase hh.nodup]

/-- An update either stores the new bytes or takes the record out, the latter
only when its old bytes and the free space together are too small for it. -/
theorem updateRecord (hb : b.Valid) {old : List UInt8} (hk : b.get k = some old)
    (data : List UInt8) :
    ∃ b', b'.Valid ∧ b'.isDirty = true
      ∧ (b.updateRecord k data = some (.ok, b') ∧ b'.get = Function.update b.get k (some data)
          ∧ data.length ≤ b.getCIDF.m_amoutOfFreeSpace + old.length
        ∨ b.updateRecord k data = some (.noSpaceForNewData, b')
          ∧ b'.get = Function.update b.get k none
          ∧ b.getCIDF.m_amoutOfFreeSpace + old.length < data.length) := by
  have hne : b.get k ≠ none := by rw [hk]; exact Option.some_ne_none old
  obtain ⟨pre, r, post, hs, rfl⟩ := exists_split hne
  have hh : b.Holds (pre ++ r :: post) := hs ▸ hb
  have hold : r.data = old := by
    rw [hh.get_eq, find_middle hh.nodup] at hk
    exact Option.some.inj hk
  subst hold
  by_cases hlen : data.length = r.data.length
  · obtain ⟨b', hup, hh', hd⟩ := hh.updateRecord_same hlen
    refine ⟨b', hh'.valid, hd, Or.inl ⟨hup, ?_, by omega⟩⟩
    rw [hh'.get_eq, hh.get_eq, find_replace data hh.nodup]
  · obtain ⟨b', hd, ⟨hup, hh', hroom⟩ | ⟨hup, hh', hroom⟩⟩ := hh.updateRecord_other hlen
    · refine ⟨b', hh'.valid, hd, Or.inl ⟨hup, ?_, hroom⟩⟩
      have hnd := hh.nodup
      rw [keys, List.map_append, List.map_cons, List.nodup_middle, List.nodup_cons,
        ← List.map_append] at hnd
      rw [hh'.get_eq, hh.get_eq, find_add data hnd.1, find_erase hh.nodup, Function.update_idem]
    · refine ⟨b', hh'.valid, hd, Or.inr ⟨hup, ?_, hroom⟩⟩
      rw [hh'.get_eq, hh.get_eq, find_erase hh.nodup]

/-- A write either stores the record or leaves the block alone. -/
theorem writeRecord (hb : b.Valid) (hk : b.get k = none) (data : List UInt8) :
    (∃ b', b.writeRecord k data = some (.ok, b') ∧ b'.Valid ∧ b'.isDirty = true
        ∧ b'.get = Function.update b.get k (some data))
      ∨ b.writeRecord k data = some (.noSpaceForNewData, b)
        ∧ b.getCIDF.m_amoutOfFreeSpace < data.length + sizeofRDF := by
  have hk' : k ∉ keys b.records := find_eq_none.mp hk
  by_cases hfit : data.length + sizeofRDF ≤ b.getCIDF.m_amoutOfFreeSpace
  · obtain ⟨b', hw, hh', hd⟩ := Holds.writeRecord_fits hb hk' hfit
    refine Or.inl ⟨b', hw, hh'.valid, hd, ?_⟩
    rw [hh'.get_eq, get, find_add data hk']
  · exact Or.inr ⟨Holds.writeRecord_full hb k (by omega), by omega⟩

end Valid

/-! ## A fresh block -/

theorem initBlock_shape_zero : Blman.zeroBlock.initBlock.Shape []
    (List.replicate CIDFOffset 0) eBLF_Dirty := by
  have hb : Blman.zeroBlock.bytes = List.replicate CIDFOffset 0 ++ CIDF.toBytes ⟨0, 0, 0⟩ := by
    have hc : CIDF.toBytes ⟨0, 0, 0⟩ = List.replicate sizeofCIDF 0 := by decide
    rw [hc, List.replicate_append_replicate]
    rfl
  exact initBlock_shape Blman.zeroBlock _ _ hb

theorem initBlock_holds : Blman.zeroBlock.initBlock.Holds [] :=
  ⟨⟨_, _, initBlock_shape_zero⟩, List.nodup_nil⟩

theorem initBlock_valid : Blman.zeroBlock.initBlock.Valid := initBlock_holds.valid

theorem initBlock_dirty : Blman.zeroBlock.initBlock.isDirty = true :=
  initBlock_shape_zero.isDirty

theorem initBlock_free : Blman.zeroBlock.initBlock.getCIDF.m_amoutOfFreeSpace = CIDFOffset := by
  rw [initBlock_shape_zero.getCIDF]
  exact List.length_replicate

theorem initBlock_get : Blman.zeroBlock.initBlock.get = fun _ => none := by
  rw [initBlock_holds.get_eq]
  rfl

end Block

/-! ## The blocks of a manager as a map -/

/-- For each key the bytes in the first block that has it. -/
def contentsOf (blocks : List Block) : RecordMap := fun k => blocks.findSome? fun b => b.get k

/-- Well-formed blocks, and no key in two of them. -/
structure Sound (blocks : List Block) : Prop where
  valid : ∀ b ∈ blocks, b.Valid
  unique : ∀ (k : UInt64) (i j : ℕ) (b b' : Block), blocks[i]? = some b → blocks[j]? = some b' →
    b.get k ≠ none → b'.get k ≠ none → i = j

theorem contentsOf_eq_some {blocks : List Block} (h : Sound blocks) {k : UInt64}
    {d : List UInt8} :
    contentsOf blocks k = some d ↔ ∃ (i : ℕ) (b : Block), blocks[i]? = some b ∧ b.get k = some d := by
  constructor
  · intro hc
    obtain ⟨b, hb, hd⟩ := List.exists_of_findSome?_eq_some hc
    obtain ⟨i, hi⟩ := List.mem_iff_getElem?.mp hb
    exact ⟨i, b, hi, hd⟩
  · rintro ⟨i, b, hi, hd⟩
    rcases hc : contentsOf blocks k with _ | d'
    · have hnone := List.findSome?_eq_none_iff.mp hc b (List.mem_of_getElem? hi)
      rw [hd] at hnone
      cases hnone
    · obtain ⟨b', hb', hd'⟩ := List.exists_of_findSome?_eq_some hc
      obtain ⟨j, hj⟩ := List.mem_iff_getElem?.mp hb'
      have hij := h.unique k i j b b' hi hj (by rw [hd]; exact Option.some_ne_none d)
        (by rw [hd']; exact Option.some_ne_none d')
      subst hij
      rw [hi] at hj
      cases hj
      rw [← hd', ← hd]

/-- What every operation but the clearing of flags respects: a block that is not
marked dirty is the block that was there before. -/
def DirtyFrame (bs bs' : List Block) : Prop :=
  ∀ (i : ℕ) (b' : Block), bs'[i]? = some b' → bs[i]? = some b' ∨ b'.isDirty = true

namespace DirtyFrame

theorem refl (bs : List Block) : DirtyFrame bs bs := fun _ _ h => Or.inl h

theorem trans {bs bs' bs'' : List Block} (h : DirtyFrame bs bs') (h' : DirtyFrame bs' bs'') :
    DirtyFrame bs bs'' := by
  intro i b hb
  rcases h' i b hb with hb' | hd
  · exact h i b hb'
  · exact Or.inr hd

theorem set {bs : List Block} {n : ℕ} {b : Block} (hd : b.isDirty = true) :
    DirtyFrame bs (bs.set n b) := by
  intro i b' hb'
  rw [List.getElem?_set] at hb'
  split at hb'
  · split at hb'
    · cases hb'
      exact Or.inr hd
    · cases hb'
  · exact Or.inl hb'

theorem append {bs : List Block} {b : Block} (hd : b.isDirty = true) :
    DirtyFrame bs (bs ++ [b]) := by
  intro i b' hb'
  rw [List.getElem?_append] at hb'
  split at hb'
  · exact Or.inl hb'
  · rw [List.getElem?_singleton] at hb'
    split at hb'
    · cases hb'
      exact Or.inr hd
    · cases hb'

end DirtyFrame

namespace Blman

/-- The map a manager stands for. -/
def contents (m : Blman) : RecordMap := contentsOf m.blocks

/-- The invariant of a manager: at least one block and no more than the counter
can count, all well formed, and the index knows where every key is. -/
structure Inv (m : Blman) : Prop where
  nonempty : m.blocks ≠ []
  count_lt : m.blockCount < 65536
  valid : ∀ b ∈ m.blocks, b.Valid
  index : ∀ (k : UInt64) (n : ℕ), m.blockIndex.lookup k = some n ↔
    ∃ b, m.blocks[n]? = some b ∧ b.get k ≠ none

namespace Inv

variable {m : Blman}

theorem sound (h : m.Inv) : Sound m.blocks where
  valid := h.valid
  unique := by
    intro k i j b b' hi hj hb hb'
    have hki := (h.index k i).mpr ⟨b, hi, hb⟩
    have hkj := (h.index k j).mpr ⟨b', hj, hb'⟩
    rw [hki] at hkj
    exact Option.some.inj hkj

theorem contents_eq_some (h : m.Inv) {k : UInt64} {d : List UInt8} :
    m.contents k = some d ↔ ∃ (i : ℕ) (b : Block), m.blocks[i]? = some b ∧ b.get k = some d :=
  contentsOf_eq_some h.sound

/-- The domain of the map is the key set of the index. -/
theorem contents_ne_none (h : m.Inv) {k : UInt64} : m.contents k ≠ none ↔ k ∈ m.blockIndex := by
  rw [Option.ne_none_iff_exists', ← AList.lookup_isSome, Option.isSome_iff_exists]
  constructor
  · rintro ⟨d, hd⟩
    obtain ⟨i, b, hi, hb⟩ := h.contents_eq_some.mp hd
    exact ⟨i, (h.index k i).mpr ⟨b, hi, by rw [hb]; exact Option.some_ne_none d⟩⟩
  · rintro ⟨i, hi⟩
    obtain ⟨b, hb, hne⟩ := (h.index k i).mp hi
    obtain ⟨d, hd⟩ := Option.ne_none_iff_exists'.mp hne
    exact ⟨d, h.contents_eq_some.mpr ⟨i, b, hb, hd⟩⟩

theorem contents_eq_none (h : m.Inv) {k : UInt64} : m.contents k = none ↔ k ∉ m.blockIndex := by
  rw [← h.contents_ne_none, Classical.not_not]

/-- **One key, one block.** Replacing block `n` by one that differs from it at
`key` only, and the index entry of `key` accordingly, updates the map at `key`. -/
theorem set (h : m.Inv) {n : ℕ} {b b' : Block} {key : UInt64} {v : Option (List UInt8)}
    {index : AvlTable} (hb : m.blocks[n]? = some b) (hv : b'.Valid)
    (hget : b'.get = Function.update b.get key v)
    (hne : ∀ k, k ≠ key → index.lookup k = m.blockIndex.lookup k)
    (hkey : index.lookup key = v.map fun _ => n)
    (hold : ∀ j, m.blockIndex.lookup key = some j → j = n) :
    Inv ⟨index, m.blocks.set n b'⟩
      ∧ contents ⟨index, m.blocks.set n b'⟩ = Function.update m.contents key v := by
  have hn : n < m.blocks.length := (List.getElem?_eq_some_iff.mp hb).1
  have hself : (m.blocks.set n b')[n]? = some b' := List.getElem?_set_self hn
  have hother : ∀ j, j ≠ n → (m.blocks.set n b')[j]? = m.blocks[j]? :=
    fun j hj => List.getElem?_set_ne hj.symm
  have hnokey : ∀ j c, j ≠ n → m.blocks[j]? = some c → c.get key = none := by
    intro j c hj hc
    by_contra hk
    exact hj (hold j ((h.index key j).mpr ⟨c, hc, hk⟩))
  have hinv : Inv ⟨index, m.blocks.set n b'⟩ := by
    refine ⟨?_, ?_, ?_, ?_⟩
    · intro hnil
      have hlen := congrArg List.length hnil
      rw [List.length_set, List.length_nil] at hlen
      omega
    · show (m.blocks.set n b').length < 65536
      rw [List.length_set]
      exact h.count_lt
    · intro c hc
      rcases List.mem_or_eq_of_mem_set hc with hc | rfl
      · exact h.valid c hc
      · exact hv
    · intro k j
      show index.lookup k = some j ↔ ∃ c, (m.blocks.set n b')[j]? = some c ∧ c.get k ≠ none
      by_cases hj : j = n
      · subst hj
        rw [hself]
        by_cases hk : k = key
        · subst hk
          rw [hkey]
          constructor
          · intro hv'
            refine ⟨b', rfl, ?_⟩
            rw [hget, Function.update_self]
            rintro rfl
            cases hv'
          · rintro ⟨c, hc, hck⟩
            cases hc
            rw [hget, Function.update_self] at hck
            obtain ⟨d, rfl⟩ := Option.ne_none_iff_exists'.mp hck
            rfl
        · rw [hne k hk, h.index, hb]
          simp only [Option.some.injEq, exists_eq_left', hget, Function.update_of_ne hk]
      · rw [hother j hj]
        by_cases hk : k = key
        · subst hk
          rw [hkey]
          constructor
          · intro hv'
            obtain ⟨d, -, rfl⟩ := Option.map_eq_some_iff.mp hv'
            exact absurd rfl hj
          · rintro ⟨c, hc, hck⟩
            exact absurd (hnokey j c hj hc) hck
        · rw [hne k hk, h.index]
  refine ⟨hinv, ?_⟩
  funext k
  by_cases hk : k = key
  · subst hk
    rw [Function.update_self]
    cases v with
    | none =>
      rw [hinv.contents_eq_none, ← AList.lookup_eq_none]
      exact hkey
    | some d =>
      refine hinv.contents_eq_some.mpr ⟨n, b', hself, ?_⟩
      rw [hget, Function.update_self]
  · rw [Function.update_of_ne hk]
    refine Option.ext fun d => ?_
    rw [hinv.contents_eq_some, h.contents_eq_some]
    refine exists_congr fun j => ?_
    by_cases hj : j = n
    · subst hj
      show (∃ c, (m.blocks.set j b')[j]? = some c ∧ _) ↔ _
      rw [hself, hb]
      simp only [Option.some.injEq, exists_eq_left', hget, Function.update_of_ne hk]
    · show (∃ c, (m.blocks.set n b')[j]? = some c ∧ _) ↔ _
      rw [hother j hj]

end Inv

end Blman

end TransDB
