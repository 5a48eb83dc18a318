/-
Block managers that are loaded, cleaned and defragmented.

`blman_create` over blocks read from disk rebuilds the index by a scan of every
block. The scan walks down the RDFs with a `uint16` position and stops below
their area; when a block holds as many records as it has room for RDFs (409, all
empty), the position wraps instead and the scan leaves the block. A manager that
is created at all is in order, and it stands for the map of its blocks.
-/
import TransDB.BlockManagerRuns
import TransDB.BlockScan

set_option autoImplicit false

namespace TransDB

open ByteList Record

/-! ## The index from the blocks -/

namespace AvlTable

/-- Keys inserted one after another with one block number. -/
def insertKeys (t : AvlTable) (blockNumber : ℕ) (ks : List UInt64) : AvlTable :=
  ks.foldl (fun t k => t.avlInsert k blockNumber) t

theorem insertKeys_cons (t : AvlTable) (n : ℕ) (k : UInt64) (ks : List UInt64) :
    t.insertKeys n (k :: ks) = (t.avlInsert k n).insertKeys n ks := rfl

theorem lookup_avlInsert (t : AvlTable) (k k' : UInt64) (n : ℕ) :
    (t.avlInsert k n).lookup k' = if k' ∈ t then t.lookup k' else if k' = k then some n else none := by
  rw [avlInsert]
  by_cases hk : k ∈ t
  · rw [if_pos hk]
    by_cases hk' : k' ∈ t
    · rw [if_pos hk']
    · have hne : k' ≠ k := by
        rintro rfl
        exact hk' hk
      rw [if_neg hk', if_neg hne, AList.lookup_eq_none.mpr hk']
  · rw [if_neg hk]
    by_cases hne : k' = k
    · rw [hne, AList.lookup_insert, if_neg hk, if_pos rfl]
    · rw [AList.lookup_insert_ne hne, if_neg hne]
      by_cases hk' : k' ∈ t
      · rw [if_pos hk']
      · rw [if_neg hk', AList.lookup_eq_none.mpr hk']

theorem mem_avlInsert (t : AvlTable) (k k' : UInt64) (n : ℕ) :
    k' ∈ t.avlInsert k n ↔ k' ∈ t ∨ k' = k := by
  rw [avlInsert]
  by_cases hk : k ∈ t
  · rw [if_pos hk]
    constructor
    · exact Or.inl
    · rintro (h | rfl)
      · exact h
      · exact hk
  · rw [if_neg hk, AList.mem_insert, or_comm]

/-- A key that was there keeps its block, a new one gets this one. -/
theorem lookup_insertKeys (t : AvlTable) (n : ℕ) (ks : List UInt64) (k : UInt64) :
    (t.insertKeys n ks).lookup k
      = if k ∈ t then t.lookup k else if k ∈ ks then some n else none := by
  induction ks generalizing t with
  | nil =>
    rw [if_neg List.not_mem_nil]
    by_cases hk : k ∈ t
    · rw [if_pos hk]
      rfl
    · rw [if_neg hk]
      exact AList.lookup_eq_none.mpr hk
  | cons k0 ks ih =>
    rw [insertKeys_cons, ih, lookup_avlInsert]
    simp only [mem_avlInsert, List.mem_cons]
    by_cases hk : k ∈ t
    · simp only [hk, true_or, if_true]
    · by_cases hk0 : k = k0
      · simp only [hk0, or_true, if_true, true_or]
      · simp only [hk, hk0, or_self, if_false, false_or]

end AvlTable

namespace Blman

/-- The scan of a block. `pre` are the records it has passed. -/
theorem indexLoop_spec {b : Block} {free : List UInt8} {flags : UInt8} (n : ℕ)
    (post : List Record) :
    ∀ (pre : List Record) (fuel : ℕ) (index : AvlTable), b.Shape (pre ++ post) free flags →
      indexLoop b n (CIDFOffset - sizeofRDF * (pre ++ post).length) fuel
          (Block.rdfPosition pre.length) index
        = if post.length < fuel ∧ (pre ++ post).length < CIDFOffset / sizeofRDF then
            some (index.insertKeys n (keys post))
          else none := by
  induction post with
  | nil =>
    intro pre fuel index hs
    rcases fuel with _ | fuel
    · rw [indexLoop, if_neg (Block.turns_zero _ _)]
    rw [List.append_nil] at hs ⊢
    rw [indexLoop]
    by_cases hlen : pre.length < CIDFOffset / sizeofRDF
    · rw [if_pos (Block.scan_stop hlen), if_pos ⟨Nat.succ_pos fuel, hlen⟩]
      rfl
    · obtain ⟨hnot, hload⟩ := hs.scan_wrap hlen
      rw [if_neg hnot, if_neg fun h => hlen h.2, hload]
      rfl
  | cons r post ih =>
    intro pre fuel index hs
    rcases fuel with _ | fuel
    · rw [indexLoop, if_neg (Block.turns_zero _ _)]
    obtain ⟨hnot, hload⟩ := hs.scan_load
    have happ : pre ++ r :: post = (pre ++ [r]) ++ post := by
      rw [List.append_assoc, List.singleton_append]
    have hnext : Block.rdfPosition (pre.length + 1) = Block.rdfPosition (pre ++ [r]).length := by
      rw [List.length_append, List.length_singleton]
    have hstep := ih (pre ++ [r]) fuel (index.avlInsert r.key n) (happ ▸ hs)
    rw [← happ] at hstep
    rw [indexLoop, if_neg hnot, hload, Option.bind_eq_bind, Option.bind_some,
      Block.rdfPosition_next, hnext, if_congr (Block.turns_cons r post fuel _) rfl rfl]
    exact hstep

/-- The scan of a well-formed block. -/
theorem indexBlock_spec {b : Block} (h : b.Valid) (n : ℕ) (index : AvlTable) :
    indexBlock b n index
      = if b.Scannable then some (index.insertKeys n (keys b.records)) else none := by
  obtain ⟨free, flags, hs⟩ := h.shape
  have hloop := indexLoop_spec n b.records [] BLOCK_SIZE index hs
  rw [List.nil_append, if_congr (and_iff_right hs.length_lt) rfl rfl] at hloop
  rw [indexBlock, hs.endOfRDFArea]
  exact hloop

/-- The scan of all blocks from number `i` on, when every key is in one block only. -/
theorem indexBlocks_spec {blocks : List Block} (h : Sound blocks) (i : ℕ) (rest : List Block) :
    ∀ index : AvlTable, blocks.drop i = rest →
      (∀ k n, index.lookup k = some n ↔ n < i ∧ ∃ b, blocks[n]? = some b ∧ b.get k ≠ none) →
      (∀ b ∈ rest, b.Scannable) →
      ∃ index', indexBlocks i rest index = some index'
        ∧ ∀ k n, index'.lookup k = some n ↔ ∃ b, blocks[n]? = some b ∧ b.get k ≠ none := by
  induction rest generalizing i with
  | nil =>
    intro index hdrop hindex _
    refine ⟨index, rfl, fun k n => ?_⟩
    rw [hindex]
    refine and_iff_right_of_imp ?_
    rintro ⟨b, hb, -⟩
    have hlen := List.drop_eq_nil_iff.mp hdrop
    have hn := (List.getElem?_eq_some_iff.mp hb).1
    omega
  | cons b rest ih =>
    intro index hdrop hindex hscan
    have hi : blocks[i]? = some b := by
      rw [← List.head?_drop, hdrop]
      rfl
    have hdrop' : blocks.drop (i + 1) = rest := by
      rw [← List.tail_drop, hdrop]
      rfl
    rw [indexBlocks, indexBlock_spec (h.valid b (List.mem_of_getElem? hi)),
      if_pos (hscan b List.mem_cons_self), Option.bind_eq_bind, Option.bind_some]
    refine ih (i + 1) _ hdrop' ?_ fun c hc => hscan c (List.mem_cons_of_mem _ hc)
    intro k n
    rw [AvlTable.lookup_insertKeys]
    by_cases hk : k ∈ index
    · rw [if_pos hk, hindex]
      constructor
      · rintro ⟨hn, hb⟩
        exact ⟨by omega, hb⟩
      · rintro ⟨hn, c, hc, hget⟩
        obtain ⟨n', hn'⟩ := Option.isSome_iff_exists.mp (AList.lookup_isSome.mpr hk)
        obtain ⟨hlt, c', hc', hget'⟩ := (hindex k n').mp hn'
        have heq := h.unique k n n' c c' hc hc' hget hget'
        exact ⟨by omega, c, hc, hget⟩
    · rw [if_neg hk]
      constructor
      · intro hn
        by_cases hget : k ∈ keys b.records
        · rw [if_pos hget, Option.some.injEq] at hn
          exact ⟨by omega, b, by rw [← hn]; exact hi, Block.mem_keys_iff.mp hget⟩
        · rw [if_neg hget] at hn
          cases hn
      · rintro ⟨hn, c, hc, hget⟩
        by_cases hni : n = i
        · rw [hni, hi] at hc
          cases hc
          rw [if_pos (Block.mem_keys_iff.mpr hget), hni]
        · have hold := (hindex k n).mpr ⟨by omega, c, hc, hget⟩
          exact absurd (AList.lookup_isSome.mp (by rw [hold]; rfl)) hk

/-- A block with an RDF area that is full stops the scan. -/
theorem indexBlocks_scannable {blocks : List Block} (h : ∀ b ∈ blocks, b.Valid) (i : ℕ)
    (index index' : AvlTable) (hi : indexBlocks i blocks index = some index') :
    ∀ b ∈ blocks, b.Scannable := by
  induction blocks generalizing i index with
  | nil =>
    intro b hb
    cases hb
  | cons b blocks ih =>
    rw [indexBlocks, indexBlock_spec (h b List.mem_cons_self)] at hi
    by_cases hs : b.Scannable
    · rw [if_pos hs, Option.bind_eq_bind, Option.bind_some] at hi
      intro c hc
      rcases List.mem_cons.mp hc with rfl | hc
      · exact hs
      · exact ih (fun c hc => h c (List.mem_cons_of_mem _ hc)) _ _ hi c hc
    · rw [if_neg hs] at hi
      cases hi

/-- `blman_create` over sound blocks that can be scanned gives a manager in order. -/
theorem create_spec {blocks : List Block} (h : Sound blocks) (hne : blocks ≠ [])
    (hlt : blocks.length < 65536) (hscan : ∀ b ∈ blocks, b.Scannable) :
    ∃ m, create (some blocks) = some m ∧ m.Inv ∧ m.blocks = blocks := by
  obtain ⟨index, hindex, hlook⟩ := indexBlocks_spec h 0 blocks ∅ rfl (by
    intro k n
    rw [AList.lookup_empty]
    constructor
    · intro hn
      cases hn
    · rintro ⟨hn, -⟩
      omega) hscan
  refine ⟨⟨index, blocks⟩, ?_, ⟨hne, hlt, h.valid, hlook⟩, rfl⟩
  rw [create, hindex]
  rfl

/-- A manager that `blman_create` returns over sound blocks is in order. -/
theorem create_some {blocks : List Block} {m : Blman} (h : Sound blocks) (hne : blocks ≠ [])
    (hlt : blocks.length < 65536) (hc : create (some blocks) = some m) :
    m.Inv ∧ m.blocks = blocks := by
  obtain ⟨index, hindex⟩ : ∃ index, indexBlocks 0 blocks ∅ = some index := by
    rcases hi : indexBlocks 0 blocks ∅ with _ | index
    · rw [create, hi] at hc
      cases hc
    · exact ⟨index, rfl⟩
  obtain ⟨m', hm', hinv, hblocks⟩ :=
    create_spec h hne hlt (indexBlocks_scannable h.valid 0 ∅ index hindex)
  rw [hc] at hm'
  cases hm'
  exact ⟨hinv, hblocks⟩

/-- Two managers in order over the same blocks answer every read alike. -/
theorem Inv.read_eq {m m' : Blman} (h : m.Inv) (h' : m'.Inv) (hb : m'.blocks = m.blocks)
    (sh : Shared) (key : UInt64) (out : List UInt8) :
    m'.readRecord sh key out = m.readRecord sh key out
      ∧ m'.readRecords sh out = m.readRecords sh out
      ∧ m'.getAllRecordKeys = m.getAllRecordKeys := by
  have hlook : ∀ k, m'.blockIndex.lookup k = m.blockIndex.lookup k := by
    intro k
    ext n
    rw [h.index, h'.index, hb]
  refine ⟨?_, ?_, ?_⟩
  · rw [readRecord, readRecord, hlook]
    simp only [getBlock, hb]
  · rw [readRecords, readRecords, hb]
  · have hmem : ∀ k, k ∈ m'.blockIndex ↔ k ∈ m.blockIndex := by
      intro k
      rw [← AList.lookup_isSome, ← AList.lookup_isSome, hlook]
    have hperm : m'.blockIndex.inOrder.Perm m.blockIndex.inOrder := by
      rw [List.perm_ext_iff_of_nodup m'.blockIndex.inOrder_nodup m.blockIndex.inOrder_nodup]
      intro k
      rw [AvlTable.mem_inOrder, AvlTable.mem_inOrder, hmem]
    exact AvlTable.inOrder_unique hperm m.blockIndex.inOrder_sorted

end Blman

/-! ## Clearing the flags -/

theorem clear_dirty (flags : UInt8) : ((flags &&& ~~~eBLF_Dirty) &&& eBLF_Dirty != 0) = false := by
  have h : (flags &&& ~~~eBLF_Dirty) &&& eBLF_Dirty = 0 := by
    apply UInt8.toBitVec_inj.mp
    simp only [UInt8.toBitVec_and, UInt8.toBitVec_not]
    ext i hi
    have hbool : ∀ x y : Bool, ((x && !y) && y) = false := by decide
    rw [BitVec.getElem_and, BitVec.getElem_and, BitVec.getElem_not, hbool]
    exact (BitVec.getElem_zero hi).symm
  rw [h]
  rfl

theorem clear_clean {flags : UInt8} (h : (flags &&& eBLF_Dirty != 0) = false) :
    flags &&& ~~~eBLF_Dirty = flags := by
  have hzero : flags &&& eBLF_Dirty = 0 := by
    rw [bne_eq_false_iff_eq] at h
    exact h
  apply UInt8.toBitVec_inj.mp
  simp only [UInt8.toBitVec_and, UInt8.toBitVec_not]
  ext i hi
  have hbit : (flags.toBitVec &&& eBLF_Dirty.toBitVec)[i] = (0 : BitVec 8)[i] := by
    have hvec : flags.toBitVec &&& eBLF_Dirty.toBitVec = 0 := by
      rw [← UInt8.toBitVec_and, hzero]
      rfl
    rw [hvec]
  have hbool : ∀ x y : Bool, (x && y) = false → (x && !y) = x := by decide
  rw [BitVec.getElem_and, BitVec.getElem_not]
  rw [BitVec.getElem_and] at hbit
  exact hbool _ _ (hbit.trans (BitVec.getElem_zero hi))

namespace Block

theorem clearDirty_shape {b : Block} {recs : List Record} {free : List UInt8} {flags : UInt8}
    (h : b.Shape recs free flags) : b.clearDirty.Shape recs free (flags &&& ~~~eBLF_Dirty) := by
  have hbytes : b.bytes = dataArea recs ++ free ++ rdfArea recs
      ++ CIDF.toBytes ⟨free.length, (dataArea recs).length, flags⟩ := h
  rw [Shape, clearDirty, layout]
  simp only [h.getCIDF]
  exact putCIDF_of_append hbytes _

namespace Valid

variable {b : Block}

theorem clearDirty_holds (h : b.Valid) : b.clearDirty.Holds b.records := by
  obtain ⟨free, flags, hs⟩ := h.shape
  exact ⟨⟨free, _, clearDirty_shape hs⟩, h.nodup⟩

theorem clearDirty (h : b.Valid) : b.clearDirty.Valid := h.clearDirty_holds.valid

theorem clearDirty_records (h : b.Valid) : b.clearDirty.records = b.records :=
  h.clearDirty_holds.records_eq

theorem clearDirty_get (h : b.Valid) : b.clearDirty.get = b.get := by
  rw [Block.get, h.clearDirty_records]
  rfl

theorem clearDirty_clean (h : b.Valid) : b.clearDirty.isDirty = false := by
  obtain ⟨free, flags, hs⟩ := h.shape
  rw [(clearDirty_shape hs).isDirty]
  exact clear_dirty flags

/-- There is nothing to clear in a block that is not dirty. -/
theorem clearDirty_eq (h : b.Valid) (hd : b.isDirty = false) : b.clearDirty = b := by
  obtain ⟨free, flags, hs⟩ := h.shape
  rw [hs.isDirty] at hd
  have hc := clearDirty_shape hs
  rw [clear_clean hd] at hc
  exact Block.ext (hc.trans hs.symm)

end Valid

end Block

theorem Sound.clearDirty {blocks : List Block} (h : Sound blocks) :
    Sound (blocks.map Block.clearDirty) where
  valid := by
    intro b hb
    obtain ⟨c, hc, rfl⟩ := List.mem_map.mp hb
    exact (h.valid c hc).clearDirty
  unique := by
    intro k i j b b' hi hj hget hget'
    rw [List.getElem?_map] at hi hj
    obtain ⟨c, hc, rfl⟩ := Option.map_eq_some_iff.mp hi
    obtain ⟨c', hc', rfl⟩ := Option.map_eq_some_iff.mp hj
    rw [(h.valid c (List.mem_of_getElem? hc)).clearDirty_get] at hget
    rw [(h.valid c' (List.mem_of_getElem? hc')).clearDirty_get] at hget'
    exact h.unique k i j c c' hc hc' hget hget'

/-- The flags are no part of the map. -/
theorem contentsOf_clearDirty {blocks : List Block} (h : ∀ b ∈ blocks, b.Valid) :
    contentsOf (blocks.map Block.clearDirty) = contentsOf blocks := by
  funext k
  rw [contentsOf, contentsOf]
  induction blocks with
  | nil => rfl
  | cons b bs ih =>
    rw [List.map_cons, List.findSome?_cons, List.findSome?_cons,
      (h b List.mem_cons_self).clearDirty_get, ih fun c hc => h c (List.mem_cons_of_mem _ hc)]

namespace Blman

variable {m : Blman}

/-- Clearing the flags keeps the manager in order. -/
theorem Inv.clearDirtyFlags (h : m.Inv) : m.clearDirtyFlags.Inv where
  nonempty := by
    intro hnil
    exact h.nonempty (List.map_eq_nil_iff.mp hnil)
  count_lt := by
    show (m.blocks.map Block.clearDirty).length < 65536
    rw [List.length_map]
    exact h.count_lt
  valid := h.sound.clearDirty.valid
  index := by
    intro k n
    show m.blockIndex.lookup k = some n
      ↔ ∃ b, (m.blocks.map Block.clearDirty)[n]? = some b ∧ b.get k ≠ none
    rw [h.index, List.getElem?_map]
    constructor
    · rintro ⟨b, hb, hget⟩
      refine ⟨b.clearDirty, ?_, ?_⟩
      · rw [hb]
        rfl
      · rw [(h.valid b (List.mem_of_getElem? hb)).clearDirty_get]
        exact hget
    · rintro ⟨c, hc, hget⟩
      obtain ⟨b, hb, rfl⟩ := Option.map_eq_some_iff.mp hc
      rw [(h.valid b (List.mem_of_getElem? hb)).clearDirty_get] at hget
      exact ⟨b, hb, hget⟩

theorem Inv.clearDirtyFlags_contents (h : m.Inv) : m.clearDirtyFlags.contents = m.contents :=
  contentsOf_clearDirty h.valid

theorem clearDirtyFlags_blockCount (m : Blman) : m.clearDirtyFlags.blockCount = m.blockCount :=
  List.length_map _

theorem clearDirtyFlags_memoryUsage (sh : Shared) (m : Blman) :
    m.clearDirtyFlags.memoryUsage sh = m.memoryUsage sh := by
  rw [memoryUsage, memoryUsage, clearDirtyFlags_blockCount]
  rfl

/-! ## Defragmentation -/

theorem insertLoop_inv {sh : Shared} {cfg : ℕ → WriteCfg} (fuel : ℕ) :
    ∀ (i : ℕ) (rest : List UInt8) (m m' : Blman), m.Inv →
      insertLoop sh cfg fuel i rest m = some m' → m'.Inv := by
  induction fuel with
  | zero =>
    intro i rest m m' h hl
    rw [insertLoop] at hl
    split at hl
    · cases hl
      exact h
    · cases hl
  | succ fuel ih =>
    intro i rest m m' h hl
    rw [insertLoop] at hl
    by_cases hnil : rest = []
    · rw [if_pos hnil] at hl
      cases hl
      exact h
    · rw [if_neg hnil] at hl
      simp only at hl
      split at hl
      · cases hl
      · obtain ⟨⟨st, m1⟩, hw, hl⟩ := Option.bind_eq_some_iff.mp hl
        exact ih _ _ m1 m' ((writeRecord_cases h hw).inv h) hl

/-- A defragmented manager is in order. -/
theorem Inv.defragmentData (h : m.Inv) {sh : Shared} {cfg : ℕ → WriteCfg} {m' : Blman}
    (hd : m.defragmentData sh cfg = some m') : m'.Inv := by
  rw [Blman.defragmentData] at hd
  split at hd
  · cases hd
    exact h
  · obtain ⟨records, -, hd⟩ := Option.bind_eq_some_iff.mp hd
    obtain ⟨m1, hm1, hd⟩ := Option.bind_eq_some_iff.mp hd
    have hinv1 : m1.Inv := by
      obtain ⟨m2, hm2, hinv2, -⟩ := create_none
      have heq : create none = some m1 := hm1
      rw [hm2] at heq
      cases heq
      exact hinv2
    exact insertLoop_inv _ _ _ _ _ hinv1 hd

end Blman

end TransDB
