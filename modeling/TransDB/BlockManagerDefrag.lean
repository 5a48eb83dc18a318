/-
Defragmentation.

`blman_defragment_data` expands all records into one stream, drops the blocks, and
writes the records of the stream into a new manager. It parses the stream that the
reader has made, so the records come back as they were put in, up to three limits: the
size field of a record has 16 bits, the buffer it is copied to has 4096 bytes, and a
record of more than 4081 bytes is refused by the write, whose result is ignored.
-/
import TransDB.BlockManagerPack
import TransDB.BlockManagerRead

set_option autoImplicit false

namespace TransDB

open ByteList Record

/-! ## The stream -/

/-- A record in the stream: key, size and bytes. -/
def Record.entry (r : Record) : List UInt8 :=
  toLE 8 r.key.toNat ++ toLE 2 r.data.length ++ r.data

/-- What the bulk read appends for a block. -/
theorem Block.Shape.items_eq {sh : Shared} (hz : GzipOk sh) {b : Block} {free : List UInt8} {flags : UInt8}
    (post : List Record) : ∀ pre : List Record, b.Shape (pre ++ post) free flags →
      Block.items sh b (dataArea pre).length post
        = post.flatMap fun r => entry ⟨r.key, expand sh r.data⟩ := by
  induction post with
  | nil => exact fun _ _ => rfl
  | cons r post ih =>
    intro pre hs
    obtain ⟨rest, hmem⟩ := hs.drop_data
    have hpay := payload_eq_expand hz r.data rest
    have happ : pre ++ r :: post = (pre ++ [r]) ++ post := by
      rw [List.append_assoc, List.singleton_append]
    have hnext := ih (pre ++ [r]) (happ ▸ hs)
    rw [dataArea_append, dataArea_cons, dataArea_nil, List.append_nil, List.length_append] at hnext
    rw [Block.items_cons, Block.recordItem_eq, hmem, hpay, hnext]
    rfl

namespace Blman

/-- `bbuff_read` of what is there. -/
theorem bbuffRead_append (sh : Shared) (bytes rest : List UInt8) {n : ℕ} (hn : bytes.length = n) :
    bbuffRead sh (bytes ++ rest) n = (bytes, rest) := by
  subst hn
  rw [bbuffRead, if_pos, List.take_left, List.drop_left]
  rw [List.length_append]
  exact Nat.le_add_right _ _

/-- The turn of the insert loop at a record. -/
theorem insertLoop_entry (sh : Shared) (cfg : ℕ → WriteCfg) (fuel i : ℕ) (e : Record)
    (rest : List UInt8) (m : Blman) (hsize : e.data.length < 65536) :
    insertLoop sh cfg (fuel + 1) i (e.entry ++ rest) m
      = if BLOCK_SIZE < e.data.length then none
        else (m.writeRecord sh (cfg i) e.key e.data).bind fun p =>
          insertLoop sh cfg fuel (i + 1) rest p.2 := by
  have hne : e.entry ++ rest ≠ [] := by
    intro hnil
    have hlen := congrArg List.length hnil
    simp only [entry, List.length_append, length_toLE, List.length_nil] at hlen
    omega
  have hkey : UInt64.ofNat (ofLE (toLE 8 e.key.toNat)) = e.key := by
    rw [ofLE_toLE_of_lt e.key.toNat_lt, UInt64.ofNat_toNat]
  have hlen : ofLE (toLE 2 e.data.length) = e.data.length := ofLE_toLE_of_lt (by omega)
  rw [insertLoop, if_neg hne, entry, List.append_assoc, List.append_assoc,
    bbuffRead_append sh _ _ (length_toLE 8 _)]
  dsimp only
  rw [bbuffRead_append sh _ _ (length_toLE 2 _)]
  dsimp only
  rw [hkey, hlen, bbuffRead_append sh e.data rest rfl]
  rfl

theorem insertLoop_nil (sh : Shared) (cfg : ℕ → WriteCfg) (fuel i : ℕ) (m : Blman) :
    insertLoop sh cfg fuel i [] m = some m := by
  cases fuel with
  | zero => rw [insertLoop, if_pos rfl]
  | succ fuel => rw [insertLoop, if_pos rfl]

/-! ## What goes into the stream -/

/-- The records of all blocks, in the order of the reader. -/
def allRecords (m : Blman) : List Record := m.blocks.flatMap Block.records

/-- The same with what a reader is given for each of them. -/
def expanded (sh : Shared) (m : Blman) : List Record :=
  m.allRecords.map fun r => ⟨r.key, expand sh r.data⟩

variable {sh : Shared} {m : Blman}

theorem keys_allRecords (m : Blman) : keys m.allRecords = m.allKeys := by
  rw [keys, allRecords, List.map_flatMap]
  rfl

theorem keys_expanded (sh : Shared) (m : Blman) : keys (m.expanded sh) = m.allKeys := by
  rw [← keys_allRecords, expanded, keys, List.map_map]
  rfl

theorem length_records_le {b : Block} (hb : b ∈ m.blocks) :
    b.records.length ≤ m.allRecords.length := by
  obtain ⟨pre, post, hsplit⟩ := List.append_of_mem hb
  rw [allRecords, hsplit, List.flatMap_append, List.flatMap_cons, List.length_append,
    List.length_append]
  omega

theorem Inv.mem_allRecords (h : m.Inv) {r : Record} :
    r ∈ m.allRecords ↔ m.contents r.key = some r.data := by
  rw [allRecords, List.mem_flatMap, h.contents_eq_some]
  constructor
  · rintro ⟨b, hb, hr⟩
    obtain ⟨n, hn⟩ := List.mem_iff_getElem?.mp hb
    obtain ⟨pre, post, hsplit⟩ := List.append_of_mem hr
    have hh : b.Holds (pre ++ r :: post) := hsplit ▸ h.valid b hb
    exact ⟨n, b, hn, by rw [hh.get_eq, find_middle hh.nodup]⟩
  · rintro ⟨n, b, hb, hget⟩
    have hmem := List.mem_of_getElem? hb
    obtain ⟨pre, q, post, hsplit, hkey⟩ := Block.exists_split (k := r.key) (b := b)
      (by rw [hget]; exact Option.some_ne_none _)
    have hh : b.Holds (pre ++ q :: post) := hsplit ▸ h.valid b hmem
    rw [hh.get_eq, ← hkey, find_middle hh.nodup, Option.some.injEq] at hget
    refine ⟨b, hmem, ?_⟩
    have hqr : q = r := by
      cases q
      cases r
      cases hkey
      cases hget
      rfl
    rw [hsplit, ← hqr]
    exact List.mem_append_right _ List.mem_cons_self

/-- The index has one entry for each record. -/
theorem Inv.length_allRecords (h : m.Inv) : m.allRecords.length = m.blockIndex.count := by
  have hperm : m.allKeys.Perm m.getAllRecordKeys := by
    refine (List.perm_ext_iff_of_nodup h.allKeys_nodup m.blockIndex.inOrder_nodup).mpr ?_
    intro k
    rw [h.mem_allKeys, h.contents_ne_none]
    exact AvlTable.mem_inOrder.symm
  rw [← AvlTable.length_inOrder, ← getAllRecordKeys, ← hperm.length_eq, ← keys_allRecords, keys,
    List.length_map]

theorem getRecords_fold (hz : GzipOk sh) (blocks : List Block) (hv : ∀ b ∈ blocks, b.Valid) :
    ∀ out : List UInt8, blocks.foldlM (fun out b => b.getRecords sh out) out
      = if ∀ b ∈ blocks, b.Scannable then
          some (out ++ (blocks.flatMap Block.records).flatMap fun r =>
            entry ⟨r.key, expand sh r.data⟩)
        else none := by
  induction blocks with
  | nil =>
    intro out
    rw [if_pos fun _ hb => absurd hb List.not_mem_nil]
    exact congrArg some (List.append_nil out).symm
  | cons b blocks ih =>
    intro out
    have hb := hv b List.mem_cons_self
    obtain ⟨free, flags, hs⟩ := hb.shape
    have hitems : Block.items sh b 0 b.records
        = b.records.flatMap fun r => entry ⟨r.key, expand sh r.data⟩ :=
      Block.Shape.items_eq hz b.records [] hs
    have hget := Block.Holds.getRecords_eq sh hb out
    rw [List.foldlM_cons, hget, hitems]
    by_cases hlen : b.records.length < CIDFOffset / sizeofRDF
    · rw [if_pos hlen, Option.bind_eq_bind, Option.bind_some,
        ih (fun c hc => hv c (List.mem_cons_of_mem _ hc)), List.flatMap_cons, List.flatMap_append,
        List.append_assoc]
      refine if_congr ?_ rfl rfl
      rw [List.forall_mem_cons]
      exact (and_iff_right hlen).symm
    · rw [if_neg hlen, if_neg fun hall => hlen (hall b List.mem_cons_self)]
      rfl

/-- The stream. -/
theorem Inv.readRecords_eq (hz : GzipOk sh) (h : m.Inv) :
    m.readRecords sh [] = if ∀ b ∈ m.blocks, b.Scannable then
        some ((m.expanded sh).flatMap entry)
      else none := by
  rw [readRecords, getRecords_fold hz m.blocks h.valid, List.nil_append, expanded, List.flatMap_map]
  rfl

/-! ## Writing it again -/

/-- `EnableRecordLimit` is off, or the limit leaves room for `n` records. -/
def LimitKept (cfg : WriteCfg) (n : ℕ) : Prop :=
  cfg.EnableRecordLimit = false ∨ (n : Int) ≤ cfg.RecordLimit 0 ∧ cfg.RecordLimit 0 < 2 ^ 31

theorem LimitKept.not_reached {cfg : WriteCfg} {n : ℕ} (h : LimitKept cfg n) {index : AvlTable}
    (hlt : index.count < n) : limitReached cfg index = false := by
  rw [limitReached]
  rcases h with h | ⟨hle, hint⟩
  · rw [h]
    rfl
  · have hcount : countReaches index.count (cfg.RecordLimit 0) = false := by
      rw [countReaches, Int.emod_eq_of_lt (by omega) (by omega)]
      simp only [decide_eq_false_iff_not]
      omega
    rw [hcount, Bool.and_false]

/-- The room that the entries from the `i`-th on need; those that are refused need none. -/
def needs (sh : Shared) (cfg : ℕ → WriteCfg) : ℕ → List Record → List ℕ
  | _, [] => []
  | i, e :: es =>
    if MAX_RECORD_SIZE < e.data.length then needs sh cfg (i + 1) es
    else ((compressRecord sh (cfg i) e.data).length + sizeofRDF) :: needs sh cfg (i + 1) es

/-- What the insert loop has done with the entries from the `i`-th on. -/
structure Inserted (sh : Shared) (cfg : ℕ → WriteCfg) (i : ℕ) (m : Blman) (es : List Record)
    (m' : Blman) : Prop where
  inv : m'.Inv
  copied : ∀ e ∈ es, e.data.length ≤ BLOCK_SIZE
  frees : m'.frees = Pack.placeAll CIDFOffset m.frees (needs sh cfg i es)
  count : m'.blockIndex.count = m.blockIndex.count + (needs sh cfg i es).length
  /-- A record that is not too big is stored again. -/
  stored : ∀ pre e post, es = pre ++ e :: post → e.data.length ≤ MAX_RECORD_SIZE →
    m'.contents e.key = some (compressRecord sh (cfg (i + pre.length)) e.data)
  /-- One that is too big is lost. -/
  lost : ∀ e ∈ es, MAX_RECORD_SIZE < e.data.length → m'.contents e.key = none
  others : ∀ k, k ∉ keys es → m'.contents k = m.contents k

/-- The blocks they take can be counted. -/
theorem Inserted.counted {cfg : ℕ → WriteCfg} {i : ℕ} {es : List Record} {m' : Blman}
    (h : Inserted sh cfg i m es m') :
    (Pack.placeAll CIDFOffset m.frees (needs sh cfg i es)).length < 65536 := by
  rw [← h.frees, length_frees]
  exact h.inv.count_lt

theorem Inserted.nil {cfg : ℕ → WriteCfg} {i : ℕ} (h : m.Inv) : Inserted sh cfg i m [] m := by
  refine ⟨h, fun e he => absurd he List.not_mem_nil, rfl, rfl, ?_,
    fun e he => absurd he List.not_mem_nil, fun _ _ => rfl⟩
  · intro pre e post hsplit
    exact absurd hsplit.symm (List.append_ne_nil_of_right_ne_nil _ (List.cons_ne_nil _ _))

/-- An entry that is refused for its size. -/
theorem Inserted.cons_big {cfg : ℕ → WriteCfg} {i : ℕ} {m' : Blman} {e : Record}
    {es : List Record} (h : Inserted sh cfg (i + 1) m es m') (hm : m.Inv)
    (hkey : e.key ∉ m.blockIndex) (hes : e.key ∉ keys es) (hcopy : e.data.length ≤ BLOCK_SIZE)
    (hbig : MAX_RECORD_SIZE < e.data.length) : Inserted sh cfg i m (e :: es) m' where
  inv := h.inv
  copied := List.forall_mem_cons.mpr ⟨hcopy, h.copied⟩
  frees := by
    rw [needs, if_pos hbig]
    exact h.frees
  count := by
    rw [needs, if_pos hbig]
    exact h.count
  stored := by
    intro pre x post hsplit hsmall
    cases pre with
    | nil =>
      cases hsplit
      omega
    | cons y pre =>
      cases hsplit
      have hget := h.stored pre x post rfl hsmall
      rw [hget, List.length_cons, Nat.add_assoc, Nat.add_comm 1]
  lost := by
    rw [List.forall_mem_cons]
    refine ⟨fun _ => ?_, h.lost⟩
    rw [h.others e.key hes, hm.contents_eq_none.mpr hkey]
  others := by
    intro k hk
    exact h.others k fun hin => hk (List.mem_cons_of_mem _ hin)

/-- An entry that is written. -/
theorem Inserted.cons_added {cfg : ℕ → WriteCfg} {i : ℕ} {m1 m' : Blman} {e : Record}
    {es : List Record} (h : Inserted sh cfg (i + 1) m1 es m')
    (hadd : m.Added sh (cfg i) m1 e.key e.data) (hes : e.key ∉ keys es)
    (hcopy : e.data.length ≤ BLOCK_SIZE) (hsmall : ¬ MAX_RECORD_SIZE < e.data.length) :
    Inserted sh cfg i m (e :: es) m' where
  inv := h.inv
  copied := List.forall_mem_cons.mpr ⟨hcopy, h.copied⟩
  frees := by
    rw [needs, if_neg hsmall, Pack.placeAll_cons, ← hadd.frees]
    exact h.frees
  count := by
    rw [needs, if_neg hsmall, List.length_cons, h.count, hadd.count]
    omega
  stored := by
    intro pre x post hsplit hx
    cases pre with
    | nil =>
      cases hsplit
      rw [h.others e.key hes, hadd.contents, Function.update_self]
      rfl
    | cons y pre =>
      cases hsplit
      have hget := h.stored pre x post rfl hx
      rw [hget, List.length_cons, Nat.add_assoc, Nat.add_comm 1]
  lost := by
    rw [List.forall_mem_cons]
    exact ⟨fun hbig => absurd hbig hsmall, h.lost⟩
  others := by
    intro k hk
    have hne : k ≠ e.key := by
      rintro rfl
      exact hk List.mem_cons_self
    rw [h.others k fun hin => hk (List.mem_cons_of_mem _ hin), hadd.contents,
      Function.update_of_ne hne]

/-- The loop takes the entries one by one. It ends early when one does not fit into
`arData`, or when the blocks cannot be counted. -/
theorem insertLoop_spec (sh : Shared) {cfg : ℕ → WriteCfg} {n : ℕ} (hlim : ∀ j, LimitKept (cfg j) n)
    (es : List Record) : ∀ (i fuel : ℕ) (m : Blman), m.Inv →
      (∀ e ∈ es, e.key ∉ m.blockIndex) → (keys es).Nodup →
      (∀ e ∈ es, e.data.length < 65536) → m.blockIndex.count + es.length ≤ n →
      es.length ≤ fuel →
      (∃ m', insertLoop sh cfg fuel i (es.flatMap entry) m = some m'
          ∧ Inserted sh cfg i m es m')
        ∨ insertLoop sh cfg fuel i (es.flatMap entry) m = none
          ∧ ¬ ((∀ e ∈ es, e.data.length ≤ BLOCK_SIZE)
            ∧ (Pack.placeAll CIDFOffset m.frees (needs sh cfg i es)).length < 65536) := by
  induction es with
  | nil =>
    intro i fuel m hm _ _ _ _ _
    exact Or.inl ⟨m, insertLoop_nil sh cfg fuel i m, .nil hm⟩
  | cons e es ih =>
    intro i fuel m hm hnew hnodup hsize hcount hfuel
    rw [List.length_cons] at hcount hfuel
    obtain ⟨fuel, rfl⟩ : ∃ k, fuel = k + 1 := ⟨fuel - 1, by omega⟩
    obtain ⟨hkey, hnew⟩ := List.forall_mem_cons.mp hnew
    obtain ⟨hesize, hsize⟩ := List.forall_mem_cons.mp hsize
    obtain ⟨hes, hnodup⟩ := List.nodup_cons.mp hnodup
    rw [List.flatMap_cons, insertLoop_entry sh cfg fuel i e _ m hesize]
    by_cases hcopy : BLOCK_SIZE < e.data.length
    · rw [if_pos hcopy]
      refine Or.inr ⟨rfl, fun h => ?_⟩
      exact absurd (h.1 e List.mem_cons_self) (Nat.not_le.mpr hcopy)
    rw [if_neg hcopy]
    have hcopy' := Nat.not_lt.mp hcopy
    by_cases hbig : MAX_RECORD_SIZE < e.data.length
    · have hw : m.writeRecord sh (cfg i) e.key e.data = some ({ failRecordTooBig := true }, m) := by
        rw [writeRecord, if_pos hbig]
        rfl
      rw [hw, Option.bind_some]
      rcases ih (i + 1) fuel m hm hnew hnodup hsize (by omega) (by omega) with
        ⟨m', hl, hins⟩ | ⟨hl, hnot⟩
      · exact Or.inl ⟨m', hl, hins.cons_big hm hkey hes hcopy' hbig⟩
      · refine Or.inr ⟨hl, fun h => hnot ⟨fun x hx => h.1 x (List.mem_cons_of_mem _ hx), ?_⟩⟩
        have hlen := h.2
        rw [needs, if_pos hbig] at hlen
        exact hlen
    · rcases writeRecord_new sh hm hkey ((hlim i).not_reached (by omega))
          (Nat.not_lt.mp hbig) with ⟨st, m1, hw, hadd⟩ | ⟨hw, hfull⟩
      · rw [hw, Option.bind_some]
        have hnew1 : ∀ x ∈ es, x.key ∉ m1.blockIndex := by
          intro x hx
          have hne : x.key ≠ e.key := by
            intro heq
            exact hes (heq ▸ List.mem_map_of_mem hx)
          rw [← hadd.inv.contents_eq_none, hadd.contents, Function.update_of_ne hne,
            hm.contents_eq_none]
          exact hnew x hx
        have hcount1 := hadd.count
        rcases ih (i + 1) fuel m1 hadd.inv hnew1 hnodup hsize (by omega) (by omega) with
          ⟨m', hl, hins⟩ | ⟨hl, hnot⟩
        · exact Or.inl ⟨m', hl, hins.cons_added hadd hes hcopy' hbig⟩
        · refine Or.inr ⟨hl, fun h => hnot ⟨fun x hx => h.1 x (List.mem_cons_of_mem _ hx), ?_⟩⟩
          have hlen := h.2
          rw [needs, if_neg hbig, Pack.placeAll_cons, ← hadd.frees] at hlen
          exact hlen
      · rw [hw, Option.bind_none]
        refine Or.inr ⟨rfl, fun h => hfull ?_⟩
        have hlen := h.2
        rw [needs, if_neg hbig, Pack.placeAll_cons] at hlen
        exact Nat.lt_of_le_of_lt (Pack.length_le_placeAll _ _ _) hlen

/-! ## What is kept -/

/-- The same keys, and the same bytes for each of them. -/
structure Keeps (sh : Shared) (m m' : Blman) : Prop where
  keys : ∀ k, k ∈ m'.getAllRecordKeys ↔ k ∈ m.getAllRecordKeys
  reads : ∀ k, m'.readRecord sh k [] = m.readRecord sh k []

/-- Defragmentation returns and loses nothing. -/
def LosesNothing (sh : Shared) (cfg : ℕ → WriteCfg) (m : Blman) : Prop :=
  ∃ m', m.defragmentData sh cfg = some m' ∧ Keeps sh m m'

/-- The records can be read, copied and written again. -/
structure Repacks (sh : Shared) (cfg : ℕ → WriteCfg) (m : Blman) : Prop where
  /-- The bulk read comes to the end of every block. -/
  scannable : ∀ b ∈ m.blocks, b.records.length < 409
  /-- What a reader is given of a record is not too big for a record. -/
  small : ∀ e ∈ m.expanded sh, e.data.length ≤ MAX_RECORD_SIZE
  /-- Nor does it read as another one when it is written again. -/
  faithful : ∀ pre e post, m.expanded sh = pre ++ e :: post →
    ¬ (StoredRaw sh (cfg pre.length) e.data ∧ ReadsAsOther sh e.data)
  /-- The blocks it takes can be counted. -/
  counted : (Pack.placeAll CIDFOffset [CIDFOffset] (needs sh cfg 0 (m.expanded sh))).length < 65536

theorem mem_getAllRecordKeys {k : UInt64} : k ∈ m.getAllRecordKeys ↔ k ∈ m.blockIndex :=
  AvlTable.mem_inOrder

/-- The stream has what a read of the key gives. -/
theorem Inv.read_expanded (hz : GzipOk sh) (h : m.Inv) {e : Record} (he : e ∈ m.expanded sh) :
    m.readRecord sh e.key [] = some e.data := by
  obtain ⟨r, hr, rfl⟩ := List.mem_map.mp he
  rw [h.readRecord_eq hz, h.mem_allRecords.mp hr]
  rfl

theorem Inv.mem_index_iff (sh : Shared) (h : m.Inv) {k : UInt64} :
    k ∈ m.blockIndex ↔ k ∈ keys (m.expanded sh) := by
  rw [keys_expanded, h.mem_allKeys, h.contents_ne_none]

/-- A manager with records is emptied and filled from the stream. -/
theorem Inv.defragment_spec (hz : GzipOk sh) (h : m.Inv) {cfg : ℕ → WriteCfg}
    (hlim : ∀ i, LimitKept (cfg i) m.blockIndex.count) (hne : m.blockIndex.count ≠ 0)
    (hsize : ∀ e ∈ m.expanded sh, e.data.length < 65536) :
    (∃ m0 m', create none = some m0 ∧ m.defragmentData sh cfg = some m'
        ∧ (∀ b ∈ m.blocks, b.Scannable) ∧ Inserted sh cfg 0 m0 (m.expanded sh) m')
      ∨ m.defragmentData sh cfg = none
        ∧ ¬ ((∀ b ∈ m.blocks, b.Scannable) ∧ (∀ e ∈ m.expanded sh, e.data.length ≤ BLOCK_SIZE)
          ∧ (Pack.placeAll CIDFOffset [CIDFOffset] (needs sh cfg 0 (m.expanded sh))).length
            < 65536) := by
  obtain ⟨m0, hc, hinv0, hcont0⟩ := create_none
  have hreal : m.deallocBlocks.reallocBlocks = some m0 := hc
  rw [Blman.defragmentData, if_neg hne, h.readRecords_eq hz]
  by_cases hscan : ∀ b ∈ m.blocks, b.Scannable
  · rw [if_pos hscan]
    simp only [Option.bind_eq_bind, Option.bind_some, hreal]
    have hnew : ∀ e ∈ m.expanded sh, e.key ∉ m0.blockIndex := by
      intro e _
      rw [← hinv0.contents_eq_none, hcont0]
    have hnodup : (keys (m.expanded sh)).Nodup := by
      rw [keys_expanded]
      exact h.allKeys_nodup
    have hcount : m0.blockIndex.count + (m.expanded sh).length ≤ m.blockIndex.count := by
      have hempty : m0.blockIndex.count = 0 := by
        rw [← Option.some.inj (Eq.trans rfl hc)]
        rfl
      rw [hempty, Nat.zero_add, expanded, List.length_map, h.length_allRecords]
    have hfuel : (m.expanded sh).length ≤ ((m.expanded sh).flatMap entry).length := by
      generalize m.expanded sh = es
      induction es with
      | nil => exact Nat.le_refl _
      | cons e es ih =>
        rw [List.flatMap_cons, List.length_append, List.length_cons, entry, List.length_append,
          List.length_append, length_toLE]
        omega
    rw [← frees_create hc]
    rcases insertLoop_spec sh hlim (m.expanded sh) 0 _ m0 hinv0 hnew hnodup hsize hcount
        hfuel with ⟨m', hl, hins⟩ | ⟨hl, hnot⟩
    · exact Or.inl ⟨m0, m', hc, hl, hscan, hins⟩
    · exact Or.inr ⟨hl, fun hall => hnot hall.2⟩
  · rw [if_neg hscan]
    exact Or.inr ⟨rfl, fun hall => hscan hall.1⟩

theorem Inserted.keeps (hz : GzipOk sh) (h : m.Inv) {cfg : ℕ → WriteCfg} {m0 m' : Blman}
    (hc : create none = some m0) (hins : Inserted sh cfg 0 m0 (m.expanded sh) m')
    (hr : Repacks sh cfg m) : Keeps sh m m' := by
  have hnone : m0.contents = fun _ => none := by
    obtain ⟨m1, hc', -, hcont⟩ := create_none
    rw [hc] at hc'
    cases hc'
    exact hcont
  have hin : ∀ pre e post, m.expanded sh = pre ++ e :: post →
      m'.contents e.key = some (compressRecord sh (cfg pre.length) e.data) := by
    intro pre e post hsplit
    have hmem : e ∈ m.expanded sh := by
      rw [hsplit]
      exact List.mem_append_right _ List.mem_cons_self
    have hst := hins.stored pre e post hsplit (hr.small e hmem)
    rwa [Nat.zero_add] at hst
  have hout : ∀ k, k ∉ keys (m.expanded sh) → m'.contents k = none ∧ m.contents k = none := by
    intro k hk
    refine ⟨?_, ?_⟩
    · rw [hins.others k hk, hnone]
    · rw [h.contents_eq_none, h.mem_index_iff sh]
      exact hk
  have hsplit : ∀ k, k ∈ keys (m.expanded sh) → ∃ pre e post, m.expanded sh = pre ++ e :: post
      ∧ e.key = k := by
    intro k hk
    obtain ⟨e, he, hek⟩ := List.mem_map.mp hk
    obtain ⟨pre, post, heq⟩ := List.append_of_mem he
    exact ⟨pre, e, post, heq, hek⟩
  constructor
  · intro k
    rw [mem_getAllRecordKeys, mem_getAllRecordKeys, h.mem_index_iff sh,
      ← hins.inv.contents_ne_none]
    by_cases hk : k ∈ keys (m.expanded sh)
    · obtain ⟨pre, e, post, heq, rfl⟩ := hsplit k hk
      refine iff_of_true ?_ hk
      rw [hin pre e post heq]
      exact Option.some_ne_none _
    · exact iff_of_false (fun hne => hne (hout k hk).1) hk
  · intro k
    by_cases hk : k ∈ keys (m.expanded sh)
    · obtain ⟨pre, e, post, heq, rfl⟩ := hsplit k hk
      have hmem : e ∈ m.expanded sh := by
        rw [heq]
        exact List.mem_append_right _ List.mem_cons_self
      have hexp := (expand_compressRecord hz (cfg pre.length) e.data).mpr (hr.faithful pre e post heq)
      rw [h.read_expanded hz hmem, hins.inv.readRecord_eq hz, hin pre e post heq, Option.map_some,
        hexp]
      rfl
    · rw [hins.inv.readRecord_eq hz, h.readRecord_eq hz, (hout k hk).1, (hout k hk).2]

theorem Inserted.repacks (hz : GzipOk sh) (h : m.Inv) {cfg : ℕ → WriteCfg} {m0 m' : Blman}
    (hc : create none = some m0) (hins : Inserted sh cfg 0 m0 (m.expanded sh) m')
    (hscan : ∀ b ∈ m.blocks, b.Scannable) (hk : Keeps sh m m') : Repacks sh cfg m := by
  have hsmall : ∀ e ∈ m.expanded sh, e.data.length ≤ MAX_RECORD_SIZE := by
    intro e he
    by_contra hbig
    have hlost := hins.lost e he (Nat.not_le.mp hbig)
    have hkey : e.key ∈ m.getAllRecordKeys := by
      rw [mem_getAllRecordKeys, h.mem_index_iff sh]
      exact List.mem_map_of_mem he
    have hkey' := mem_getAllRecordKeys.mp ((hk.keys e.key).mpr hkey)
    exact hins.inv.contents_ne_none.mpr hkey' hlost
  refine ⟨hscan, hsmall, ?_, ?_⟩
  · intro pre e post hsplit
    have he : e ∈ m.expanded sh := by
      rw [hsplit]
      exact List.mem_append_right _ List.mem_cons_self
    have hst := hins.stored pre e post hsplit (hsmall e he)
    rw [Nat.zero_add] at hst
    have hread := hk.reads e.key
    rw [h.read_expanded hz he, hins.inv.readRecord_eq hz, hst] at hread
    exact (expand_compressRecord hz _ _).mp (Option.some.inj hread)
  · rw [← frees_create hc]
    exact hins.counted

/-- A manager without records is left as it is, and nothing can go wrong. -/
theorem Inv.repacks_empty (h : m.Inv) (cfg : ℕ → WriteCfg) (hzero : m.blockIndex.count = 0) :
    Repacks sh cfg m := by
  have hnil : m.allRecords = [] := by
    rw [← List.length_eq_zero_iff, h.length_allRecords, hzero]
  have hexp : m.expanded sh = [] := by
    rw [expanded, hnil]
    rfl
  refine ⟨?_, ?_, ?_, ?_⟩
  · intro b hb
    rw [List.flatMap_eq_nil_iff.mp hnil b hb]
    decide
  · rw [hexp]
    exact fun e he => absurd he List.not_mem_nil
  · rw [hexp]
    intro pre e post hsplit
    exact absurd hsplit.symm (List.append_ne_nil_of_right_ne_nil _ (List.cons_ne_nil _ _))
  · rw [hexp]
    show [CIDFOffset].length < 65536
    decide

theorem Inv.losesNothing (hz : GzipOk sh) (h : m.Inv) {cfg : ℕ → WriteCfg}
    (hlim : ∀ i, LimitKept (cfg i) m.blockIndex.count) (hr : Repacks sh cfg m) :
    LosesNothing sh cfg m := by
  by_cases hzero : m.blockIndex.count = 0
  · refine ⟨m, ?_, fun _ => Iff.rfl, fun _ => rfl⟩
    rw [Blman.defragmentData, if_pos hzero]
    rfl
  · have hle : ∀ e ∈ m.expanded sh, e.data.length ≤ BLOCK_SIZE := by
      intro e he
      exact Nat.le_trans (hr.small e he) (by decide)
    have hsize : ∀ e ∈ m.expanded sh, e.data.length < 65536 := by
      intro e he
      exact Nat.lt_of_le_of_lt (hle e he) (by decide)
    rcases h.defragment_spec hz hlim hzero hsize with ⟨m0, m', hc, hd, -, hins⟩ | ⟨-, hnot⟩
    · exact ⟨m', hd, hins.keeps hz h hc hr⟩
    · exact absurd ⟨hr.scannable, hle, hr.counted⟩ hnot

theorem Inv.repacks (hz : GzipOk sh) (h : m.Inv) {cfg : ℕ → WriteCfg}
    (hlim : ∀ i, LimitKept (cfg i) m.blockIndex.count)
    (hsize : ∀ e ∈ m.expanded sh, e.data.length < 65536) (hl : LosesNothing sh cfg m) :
    Repacks sh cfg m := by
  by_cases hzero : m.blockIndex.count = 0
  · exact h.repacks_empty cfg hzero
  · obtain ⟨m1, hd1, hk⟩ := hl
    rcases h.defragment_spec hz hlim hzero hsize with ⟨m0, m', hc, hd, hscan, hins⟩ | ⟨hd, -⟩
    · rw [hd1] at hd
      cases hd
      exact hins.repacks hz h hc hscan hk
    · rw [hd1] at hd
      cases hd

/-- **Defragmentation loses nothing** when the records can be read, copied and written
again, and, as long as no record expands to more than the size field counts, only then. -/
theorem defragment_keeps_iff (hz : GzipOk sh) (hm : Live sh m) (cfg : ℕ → WriteCfg)
    (hlim : ∀ i, LimitKept (cfg i) m.blockIndex.count) :
    (Repacks sh cfg m → LosesNothing sh cfg m)
      ∧ ((∀ e ∈ m.expanded sh, e.data.length < 65536) →
        (LosesNothing sh cfg m ↔ Repacks sh cfg m)) :=
  ⟨hm.inv.losesNothing hz hlim,
    fun hsize => ⟨hm.inv.repacks hz hlim hsize, hm.inv.losesNothing hz hlim⟩⟩

/-- A new manager with one record. -/
theorem Added.expanded_eq {m0 : Blman} {cfg : WriteCfg} {key : UInt64} {record : List UInt8}
    (hc : create none = some m0) (h : m0.Added sh cfg m key record) :
    m.expanded sh = [⟨key, expand sh (compressRecord sh cfg record)⟩] := by
  have hm0 : m0 = ⟨∅, [zeroBlock.initBlock]⟩ := Option.some.inj (hc.symm.trans rfl)
  have hone : m.allRecords.length = 1 := by
    rw [h.inv.length_allRecords, h.count, hm0]
    rfl
  obtain ⟨r, hr⟩ := List.length_eq_one_iff.mp hone
  have hcont := h.inv.mem_allRecords.mp (hr ▸ List.mem_singleton_self r)
  have hnone : m0.contents = fun _ => none := by
    obtain ⟨m1, hc', -, hcont⟩ := create_none
    rw [hc] at hc'
    cases hc'
    exact hcont
  rw [h.contents, hnone] at hcont
  by_cases hkey : r.key = key
  · rw [hkey, Function.update_self, Option.some.injEq] at hcont
    rw [expanded, hr, List.map_singleton, hkey, hcont]
  · rw [Function.update_of_ne hkey] at hcont
    cases hcont

/-- A new manager takes any record that is not too big. -/
theorem exists_one (sh : Shared) {record : List UInt8} (hsize : record.length ≤ MAX_RECORD_SIZE) :
    ∃ m0 st m, create none = some m0 ∧ m0.writeRecord sh defaultWriteCfg 7 record = some (st, m)
      ∧ Live sh m ∧ m.blockIndex.count = 1 ∧ (∀ b ∈ m.blocks, b.records.length < 409)
      ∧ m.expanded sh = [⟨7, expand sh (compressRecord sh defaultWriteCfg record)⟩] := by
  obtain ⟨m0, hc, hinv0, -⟩ := create_none
  have hm0 : m0 = ⟨∅, [zeroBlock.initBlock]⟩ := Option.some.inj (hc.symm.trans rfl)
  have hnew : (7 : UInt64) ∉ m0.blockIndex := by
    rw [hm0]
    exact AList.notMem_empty 7
  have hlim : limitReached defaultWriteCfg m0.blockIndex = false := rfl
  rcases writeRecord_new sh hinv0 hnew hlim hsize with ⟨st, m, hw, hadd⟩ | ⟨-, hfull⟩
  · have hone : m.blockIndex.count = 1 := by
      rw [hadd.count, hm0]
      rfl
    refine ⟨m0, st, m, hc, hw, .write m0 m _ 7 _ st (.new m0 hc) hw, hone, fun b hb => ?_,
      hadd.expanded_eq hc⟩
    have hsub := length_records_le hb
    rw [hadd.inv.length_allRecords, hone] at hsub
    omega
  · -- the one block there is has room, and another could be added
    refine absurd (Nat.lt_of_le_of_lt ?_ (by decide : 2 < 65536)) hfull
    rw [frees_create hc, Pack.place]
    split
    · rw [List.length_set]
      decide
    · exact Nat.le_refl 2

/-- A manager with two small records. -/
structure TwoRecords (m : Blman) : Prop where
  written : ∃ m0 st m1 st', create none = some m0
    ∧ m0.writeRecord Shared.plain defaultWriteCfg 7 [1, 2, 3] = some (st, m1)
    ∧ m1.writeRecord Shared.plain defaultWriteCfg 8 [4, 5] = some (st', m)
  live : Live Shared.plain m
  expanded : m.expanded Shared.plain = [⟨7, [1, 2, 3]⟩, ⟨8, [4, 5]⟩]

theorem exists_two : ∃ m, TwoRecords m := by
  have hrun : ((create none).bind fun m0 =>
      (m0.writeRecord Shared.plain defaultWriteCfg 7 [1, 2, 3]).bind fun p =>
        p.2.writeRecord Shared.plain defaultWriteCfg 8 [4, 5]).any (fun p =>
          decide (p.2.expanded Shared.plain = [⟨7, [1, 2, 3]⟩, ⟨8, [4, 5]⟩])) = true := by
    decide +kernel
  obtain ⟨⟨st', m⟩, hm, hexp⟩ := (Option.any_eq_true _ _).mp hrun
  obtain ⟨m0, hc, hm⟩ := Option.bind_eq_some_iff.mp hm
  obtain ⟨⟨st, m1⟩, hw, hw'⟩ := Option.bind_eq_some_iff.mp hm
  exact ⟨m, ⟨m0, st, m1, st', hc, hw, hw'⟩,
    .write m1 m _ 8 _ st' (.write m0 m1 _ 7 _ st (.new m0 hc) hw) hw', of_decide_eq_true hexp⟩

/-- They can be written again. -/
theorem TwoRecords.repacks {m : Blman} (h : TwoRecords m) :
    Repacks Shared.plain (fun _ => defaultWriteCfg) m := by
  have hlen : m.allRecords.length = 2 := by
    have hexp := congrArg List.length h.expanded
    rwa [Blman.expanded, List.length_map] at hexp
  refine ⟨fun b hb => ?_, ?_, ?_, ?_⟩
  · have hle := length_records_le hb
    omega
  · rw [h.expanded]
    intro e he
    rcases List.mem_pair.mp he with rfl | rfl
    · decide
    · decide
  · rintro pre e post - ⟨-, out, hout, -⟩
    cases hout
  · rw [h.expanded]
    decide

/-- Two records in a new manager, and its defragmentation. -/
theorem defragment_keeps_iff_two : ∃ m, TwoRecords m
    ∧ LosesNothing Shared.plain (fun _ => defaultWriteCfg) m := by
  obtain ⟨m, h⟩ := exists_two
  exact ⟨m, h, (defragment_keeps_iff Shared.gzipOk_plain h.live _
    fun _ => Or.inl rfl).1 h.repacks⟩

/-- The gzip stream of 4090 zeros. -/
def streamOfZeros : List UInt8 :=
  [0x1F, 0x8B, 0x08, 0, 0, 0, 0, 0, 0x02, 0x03, 0xED, 0xC1, 0x01, 0x0D, 0, 0, 0, 0xC2, 0xA0, 0xF7,
    0x4F, 0x6D, 0x0F, 0x07, 0x14, 0, 0, 0, 0xF0, 0x6B, 0x35, 0x17, 0x07, 0x51, 0xFA, 0x0F, 0, 0]

/-- The 4090 zeros are what a reader is given of that stream. Defragmentation writes them
instead of the stream, which is refused, and the record is gone. -/
theorem defragment_loses : GzipOk (Shared.oneStream streamOfZeros (List.replicate 4090 0)) ∧
    ∃ m0 st m m', create none = some m0
      ∧ m0.writeRecord (Shared.oneStream streamOfZeros (List.replicate 4090 0)) defaultWriteCfg 7
        streamOfZeros = some (st, m)
      ∧ m.readRecord (Shared.oneStream streamOfZeros (List.replicate 4090 0)) 7 []
        = some (List.replicate 4090 0)
      ∧ m.defragmentData (Shared.oneStream streamOfZeros (List.replicate 4090 0))
        (fun _ => defaultWriteCfg) = some m'
      ∧ m'.readRecord (Shared.oneStream streamOfZeros (List.replicate 4090 0)) 7 [] = some [] := by
  obtain ⟨sh, hsh⟩ : ∃ sh, sh = Shared.oneStream streamOfZeros (List.replicate 4090 0) := ⟨_, rfl⟩
  have hz : GzipOk sh := by
    rw [hsh]
    exact Shared.gzipOk_oneStream _ rfl
  have hstored : compressRecord sh defaultWriteCfg streamOfZeros = streamOfZeros := by
    rw [hsh]
    rfl
  have hexpand : expand sh streamOfZeros = List.replicate 4090 0 := by
    rw [hsh]
    rfl
  rw [← hsh]
  refine ⟨hz, ?_⟩
  obtain ⟨m0, st, m, hc, hw, hlive, hone, hscan, hexp⟩ := exists_one sh
    (by decide : streamOfZeros.length ≤ MAX_RECORD_SIZE)
  rw [hstored, hexpand] at hexp
  have hinv := hlive.inv
  have hmem : (⟨7, List.replicate 4090 0⟩ : Record) ∈ m.expanded sh := by
    rw [hexp]
    exact List.mem_singleton_self _
  have hlen : ∀ e ∈ m.expanded sh, e.data.length = 4090 := by
    intro e he
    rw [hexp] at he
    rw [List.mem_singleton.mp he]
    exact List.length_replicate
  have hcount : m.blockIndex.count ≠ 0 := by
    rw [hone]
    decide
  have hlim : ∀ i : ℕ, LimitKept ((fun _ => defaultWriteCfg) i) m.blockIndex.count :=
    fun _ => Or.inl rfl
  rcases hinv.defragment_spec hz hlim hcount (fun e he => by rw [hlen e he]; decide) with
    ⟨m1, m', -, hd, -, hins⟩ | ⟨-, hnot⟩
  · refine ⟨m0, st, m, m', hc, hw, hinv.read_expanded hz hmem, hd, ?_⟩
    have hlost := hins.lost _ hmem (by rw [hlen _ hmem]; decide)
    rw [hins.inv.readRecord_eq hz, hlost]
    rfl
  · refine absurd ⟨hscan, fun e he => by rw [hlen e he]; decide, ?_⟩ hnot
    have hneeds : needs sh (fun _ => defaultWriteCfg) 0 (m.expanded sh) = [] := by
      rw [hexp, needs, if_pos (by rw [List.length_replicate]; decide)]
      rfl
    rw [hneeds]
    decide

end Blman

end TransDB
