/-
The records of a manager block by block, after a write and after a defragmentation.

A write that moves its record takes records out of the blocks, one key after another, and
puts the new one behind the others of the last block with room. So the records of the blocks
after it are known from those before it, in their order. The order is what a defragmentation
depends on: it packs the records one after another, and the number of blocks it ends with is
that of a first fit.
-/
import TransDB.BlockManagerTerminates
import TransDB.BlockManagerDefrag

set_option autoImplicit false

namespace TransDB

open ByteList Record

namespace Record

/-- The records without those of the keys `removed`. -/
def without (removed : List UInt64) (recs : List Record) : List Record :=
  recs.filter fun r => r.key ∉ removed

/-- What the records of a block leave free. -/
def free (recs : List Record) : ℕ := CIDFOffset - room recs

/-- A record put behind those of the last block with room for it, or into a new block. -/
def placeInto (rows : List (List Record)) (r : Record) : List (List Record) :=
  match Pack.slot (rows.map free) (r.data.length + sizeofRDF) rows.length with
  | some n => rows.set n (rows.getD n [] ++ [r])
  | none => rows ++ [[r]]

theorem without_nil (recs : List Record) : without [] recs = recs :=
  List.filter_eq_self.mpr fun _ _ => decide_eq_true List.not_mem_nil

theorem without_without (ks ks' : List UInt64) (recs : List Record) :
    without ks' (without ks recs) = without (ks ++ ks') recs := by
  rw [without, without, without, List.filter_filter]
  refine List.filter_congr fun _ _ => ?_
  rw [← Bool.decide_and]
  refine decide_eq_decide.mpr ?_
  rw [List.mem_append, not_or]
  exact and_comm

/-- Nothing is taken out for keys that are not there. -/
theorem without_of_notMem {ks : List UInt64} {recs : List Record} (h : ∀ k ∈ ks, k ∉ keys recs) :
    without ks recs = recs :=
  List.filter_eq_self.mpr fun r hr =>
    decide_eq_true fun hk => h r.key hk (List.mem_map_of_mem hr)

/-- One record taken out. -/
theorem without_middle {pre post : List Record} {r : Record}
    (h : (keys (pre ++ r :: post)).Nodup) : without [r.key] (pre ++ r :: post) = pre ++ post := by
  rw [keys, List.map_append, List.map_cons] at h
  obtain ⟨hnot, -⟩ := List.nodup_cons.mp (List.nodup_middle.mp h)
  rw [List.mem_append, not_or] at hnot
  have hother : ∀ recs : List Record, r.key ∉ recs.map Record.key →
      without [r.key] recs = recs := by
    intro recs hr
    refine without_of_notMem fun k hk => ?_
    rw [List.mem_singleton.mp hk]
    exact hr
  have hself : without [r.key] (r :: post) = without [r.key] post :=
    List.filter_cons_of_neg (by rw [decide_eq_true_eq, not_not]; exact List.mem_singleton_self _)
  rw [without, List.filter_append, ← without, ← without, hself, hother pre hnot.1,
    hother post hnot.2]

end Record

/-! ## One block -/

namespace Block.Valid

variable {b b' : Block} {k : UInt64} {data : List UInt8} {st : E_BLS}

theorem deleteRecordByKey_records (hb : b.Valid) (hk : b.get k ≠ none)
    (h : b.deleteRecordByKey k = some (st, b')) : b'.records = without [k] b.records := by
  obtain ⟨pre, r, post, hs, rfl⟩ := exists_split hk
  have hh : b.Holds (pre ++ r :: post) := hs ▸ hb
  obtain ⟨b1, hdel, hh', -⟩ := hh.deleteRecordByKey
  rw [h] at hdel
  cases hdel
  rw [hh'.records_eq, hs, without_middle hh.nodup]

/-- An update that finds no room has taken the record out. -/
theorem updateRecord_records (hb : b.Valid) (hk : b.get k ≠ none)
    (h : b.updateRecord k data = some (st, b')) (hst : st ≠ .ok) :
    b'.records = without [k] b.records := by
  obtain ⟨pre, r, post, hs, rfl⟩ := exists_split hk
  have hh : b.Holds (pre ++ r :: post) := hs ▸ hb
  by_cases hlen : data.length = r.data.length
  · obtain ⟨b1, hup, -, -⟩ := hh.updateRecord_same hlen
    rw [h] at hup
    cases hup
    exact absurd rfl hst
  · obtain ⟨b1, -, ⟨hup, -, -⟩ | ⟨hup, hh', -⟩⟩ := hh.updateRecord_other hlen
    · rw [h] at hup
      cases hup
      exact absurd rfl hst
    · rw [h] at hup
      cases hup
      rw [hh'.records_eq, hs, without_middle hh.nodup]

end Block.Valid

namespace Blman

variable {sh : Shared} {cfg : WriteCfg} {m m' : Blman} {key : UInt64} {record : List UInt8}

/-! ## The three phases of a write -/

theorem flatten_layout (m : Blman) : m.layout.flatten = m.allRecords := rfl

theorem length_layout (m : Blman) : m.layout.length = m.blockCount := List.length_map _

theorem Inv.frees_eq (h : m.Inv) : m.frees = m.layout.map Record.free := by
  rw [frees, layout, List.map_map]
  exact List.map_congr_left fun b hb => (h.valid b hb).free_eq

/-- The block of a key loses it; the others have it not. -/
theorem Inv.layout_set (h : m.Inv) {k : UInt64} {n : ℕ} {b b' : Block} {index : AvlTable}
    (hl : m.blockIndex.lookup k = some n) (hb : m.blocks[n]? = some b)
    (hrecs : b'.records = without [k] b.records) :
    layout ⟨index, m.blocks.set n b'⟩ = m.layout.map (without [k]) := by
  rw [layout, layout, List.map_map]
  refine List.ext_getElem? fun i => ?_
  rw [List.getElem?_map, List.getElem?_map]
  have hn := (List.getElem?_eq_some_iff.mp hb).1
  by_cases hi : i = n
  · rw [hi, List.getElem?_set_self hn, hb, Option.map_some, Option.map_some, hrecs]
    rfl
  · rw [List.getElem?_set_ne (Ne.symm hi)]
    cases hc : m.blocks[i]? with
    | none => rfl
    | some c =>
      have hnot : k ∉ keys c.records := by
        rw [Block.mem_keys_iff, Ne, not_not]
        by_contra hne
        have hother := (h.index k i).mpr ⟨c, hc, hne⟩
        exact hi (Option.some.inj (hother.symm.trans hl))
      have hsame : without [k] c.records = c.records := by
        refine without_of_notMem fun k' hk' => ?_
        rw [List.mem_singleton.mp hk']
        exact hnot
      rw [Option.map_some, Option.map_some, Function.comp_apply, hsame]

theorem map_without_nil (m : Blman) : m.layout.map (without []) = m.layout :=
  (List.map_congr_left fun recs _ => without_nil recs).trans (List.map_id _)

theorem map_without_of_notMem (h : m.Inv) (hkey : key ∉ m.blockIndex) :
    m.layout.map (without [key]) = m.layout := by
  refine (List.map_congr_left fun recs hrecs => ?_).trans (List.map_id _)
  obtain ⟨b, hb, rfl⟩ := List.mem_map.mp hrecs
  obtain ⟨n, hn⟩ := List.mem_iff_getElem?.mp hb
  refine without_of_notMem fun k hk => ?_
  rw [List.mem_singleton.mp hk, Block.mem_keys_iff, h.get_eq_none hkey hn]
  exact fun hne => hne rfl

theorem deleteRecordByNode_layout (h : m.Inv) {k : UInt64} {n : ℕ}
    (hl : m.blockIndex.lookup k = some n) (hd : m.deleteRecordByNode k n = some m') :
    m'.layout = m.layout.map (without [k]) := by
  obtain ⟨b, hb, hk⟩ := (h.index k n).mp hl
  simp only [deleteRecordByNode, getBlock, hb, Option.bind_eq_bind, Option.bind_some,
    Option.bind_eq_some_iff, Option.pure_def, Option.some.injEq] at hd
  obtain ⟨⟨st, b'⟩, hdel, rfl⟩ := hd
  exact h.layout_set hl hb
    ((h.valid b (List.mem_of_getElem? hb)).deleteRecordByKey_records hk hdel)

/-- An update that does not store the record has taken the old one out. -/
theorem tryUpdate_layout (h : m.Inv) (hup : m.tryUpdate key record = some (false, m')) :
    m'.layout = m.layout.map (without [key]) := by
  rw [tryUpdate] at hup
  cases hl : m.blockIndex.lookup key with
  | none =>
    rw [hl] at hup
    cases hup
    exact (map_without_of_notMem h (AList.lookup_eq_none.mp hl)).symm
  | some n =>
    obtain ⟨b, hb, hk⟩ := (h.index key n).mp hl
    rw [hl] at hup
    simp only [getBlock, hb, Option.bind_eq_bind, Option.bind_some, Option.bind_eq_some_iff] at hup
    obtain ⟨⟨st, b'⟩, hblock, hup⟩ := hup
    dsimp only at hup
    by_cases hst : st = .ok
    · rw [if_pos hst] at hup
      cases hup
    · rw [if_neg hst] at hup
      cases hup
      exact h.layout_set hl hb
        ((h.valid b (List.mem_of_getElem? hb)).updateRecord_records hk hblock hst)

/-- The limit loop takes out the keys `evicted`. -/
theorem recordLimitLoop_layout {limit : ℕ → Int} {e : LimitExit} (ks : List UInt64) :
    ∀ (m : Blman) (i fuel : ℕ), m.Inv → m.blockIndex.inOrder = ks →
      recordLimitLoop limit key fuel i m = some (e, m') →
      m'.layout = m.layout.map (without (evicted limit key i ks))
        ∧ m'.blockIndex.count + (evicted limit key i ks).length = ks.length := by
  induction ks with
  | nil =>
    intro m i fuel h hks hloop
    have hcount : m.blockIndex.count = 0 := by
      rw [← AvlTable.length_inOrder, hks]
      rfl
    have hfirst : m.blockIndex.first = none := by
      rw [AvlTable.first, hks]
      rfl
    cases fuel with
    | zero => cases hloop
    | succ fuel =>
      rw [recordLimitLoop, hcount, hfirst] at hloop
      split at hloop
      case isTrue => cases hloop
      case isFalse =>
        cases hloop
        exact ⟨(map_without_nil _).symm, hcount⟩
  | cons k ks ih =>
    intro m i fuel h hks hloop
    have hcount : m.blockIndex.count = ks.length + 1 := by
      rw [← AvlTable.length_inOrder, hks, List.length_cons]
    have hfirst : m.blockIndex.first = some k := by
      rw [AvlTable.first, hks]
      rfl
    cases fuel with
    | zero => cases hloop
    | succ fuel =>
      rw [recordLimitLoop, hcount, hfirst] at hloop
      by_cases hturn : countReaches (ks.length + 1) (limit i) ∧ ¬ key < k
      · obtain ⟨hc, hold⟩ := hturn
        rw [if_pos hc] at hloop
        simp only [if_neg hold, Option.bind_eq_bind, Option.bind_eq_some_iff] at hloop
        obtain ⟨n, hl, m1, hdel, hloop⟩ := hloop
        obtain ⟨m2, hdel', hidx, hb1⟩ := deleteRecordByNode_spec h hl
        rw [hdel] at hdel'
        cases hdel'
        have hks1 : m1.blockIndex.inOrder = ks := by
          rw [hidx, AvlTable.inOrder_erase, hks, List.erase_cons_head]
        obtain ⟨hlayout, hlen⟩ := ih m1 (i + 1) fuel hb1.inv hks1 hloop
        rw [evicted, if_pos ⟨hc, hold⟩]
        refine ⟨?_, by rw [List.length_cons, List.length_cons]; omega⟩
        rw [hlayout, deleteRecordByNode_layout h hl hdel, List.map_map]
        exact List.map_congr_left fun recs _ => without_without [k] _ recs
      · rw [evicted, if_neg hturn]
        have hsame : m' = m := by
          by_cases hc : countReaches (ks.length + 1) (limit i) = true
          · have hold : key < k := by
              by_contra hold
              exact hturn ⟨hc, hold⟩
            rw [if_pos hc] at hloop
            simp only [if_pos hold] at hloop
            cases hloop
            rfl
          · rw [if_neg hc] at hloop
            cases hloop
            rfl
        rw [hsame]
        exact ⟨(map_without_nil _).symm, hcount⟩

theorem checkRecordLimit_layout (h : m.Inv) {st : WriteStatus}
    (hlim : m.checkRecordLimit cfg key = some (st, m')) :
    m'.layout = m.layout.map (without (evictedBy cfg key m.blockIndex))
      ∧ m'.blockIndex.count + (evictedBy cfg key m.blockIndex).length = m.blockIndex.count := by
  rw [checkRecordLimit, ← limitReached] at hlim
  rw [evictedBy]
  by_cases hl : limitReached cfg m.blockIndex = true
  · rw [if_pos hl] at hlim ⊢
    obtain ⟨⟨e, m1⟩, hloop, hlim⟩ := Option.bind_eq_some_iff.mp hlim
    obtain ⟨hlayout, hcount⟩ := recordLimitLoop_layout _ m 0 _ h rfl hloop
    rw [AvlTable.length_inOrder] at hcount
    cases e with
    | refused =>
      cases hlim
      exact ⟨hlayout, hcount⟩
    | passed =>
      cases hlim
      exact ⟨hlayout, hcount⟩
  · rw [if_neg hl] at hlim ⊢
    cases hlim
    exact ⟨(map_without_nil _).symm, rfl⟩

/-- The search for a block puts the record into one. -/
theorem writeLoop_layout (h : m.Inv) (hkey : key ∉ m.blockIndex)
    (hsize : record.length ≤ MAX_RECORD_SIZE) {reallocated : Bool}
    (hloop : writeLoop key record (m.blockCount + 2) m.blockCount false m
      = some (reallocated, m')) :
    m'.layout = placeInto m.layout ⟨key, record⟩
      ∧ m'.blockIndex.count = m.blockIndex.count + 1 := by
  have hpos : 0 < m.blockCount := List.length_pos_of_ne_nil h.nonempty
  obtain ⟨n, hn⟩ : ∃ n, m.blockCount = n + 1 := ⟨m.blockCount - 1, by omega⟩
  have hplaced := writeLoop_placed h hkey hsize n (m.blockCount + 2) (by omega) (by omega)
  rw [← hn, hloop] at hplaced
  rw [placeInto, ← h.frees_eq, length_layout]
  cases hslot : Pack.slot m.frees (record.length + sizeofRDF) m.blockCount with
  | some k =>
    obtain ⟨m1, hres, -, hindex, hlayout⟩ := hplaced.here k hslot
    cases hres
    rw [hindex]
    exact ⟨hlayout, AvlTable.count_avlInsert k hkey⟩
  | none =>
    by_cases hlt : m.blockCount + 1 < 65536
    · obtain ⟨m1, hres, -, hindex, hlayout⟩ := hplaced.fresh hslot hlt
      cases hres
      rw [hindex]
      exact ⟨hlayout, AvlTable.count_avlInsert _ hkey⟩
    · have hres := hplaced.full hslot hlt
      cases hres

/-! ## A write that is followed by a defragmentation -/

section Write

variable (sh : Shared) (cfg : WriteCfg) (m : Blman) (key : UInt64) (record : List UInt8)

/-- The write moves the record and removes enough keys for the limit that it asks for a
defragmentation. -/
structure Compacts : Prop where
  size : record.length ≤ MAX_RECORD_SIZE
  moves : m.roomFor key (compressRecord sh cfg record).length = false
  accepted : refusedBy cfg key (m.indexAfterUpdate key) = false
  limit : limitReached cfg (m.indexAfterUpdate key) = true
  enough : cfg.DefragAfterRecordDelete ≤ (evictedBy cfg key (m.indexAfterUpdate key)).length

/-- The records of each block after a write that moves the record. -/
def layoutAfter : List (List Record) :=
  placeInto (m.layout.map (without (m.removedBefore cfg key)))
    ⟨key, compressRecord sh cfg record⟩

/-- No block has room for the record once the keys are out that the write removes. -/
def Appends : Prop :=
  ∀ b ∈ m.blocks, b.roomWithout (m.removedBefore cfg key)
    < (compressRecord sh cfg record).length + sizeofRDF

instance : Decidable (m.Appends sh cfg key record) :=
  inferInstanceAs (Decidable (∀ b ∈ m.blocks, _ < _))

variable {sh cfg m key record}

/-- Only a block that is appended is new. -/
theorem length_layoutAfter :
    (m.layoutAfter sh cfg key record).length
      = m.blockCount + if m.Appends sh cfg key record then 1 else 0 := by
  have hfree : ∀ k, k < m.blockCount → ∃ b ∈ m.blocks, m.blocks[k]? = some b
      ∧ ((m.layout.map (without (m.removedBefore cfg key))).map Record.free).getD k 0
        = b.roomWithout (m.removedBefore cfg key) := by
    intro k hk
    refine ⟨m.blocks[k], List.getElem_mem hk, List.getElem?_eq_getElem hk, ?_⟩
    rw [layout, List.getD_eq_getElem?_getD, List.getElem?_map, List.getElem?_map, List.getElem?_map,
      List.getElem?_eq_getElem hk]
    rfl
  have hlen : (m.layout.map (without (m.removedBefore cfg key))).length = m.blockCount :=
    (List.length_map _).trans (length_layout m)
  have hslot : Pack.slot ((m.layout.map (without (m.removedBefore cfg key))).map Record.free)
      ((compressRecord sh cfg record).length + sizeofRDF) m.blockCount = none
      ↔ m.Appends sh cfg key record := by
    rw [Pack.slot_eq_none]
    constructor
    · intro hall b hb
      obtain ⟨k, hk, rfl⟩ := List.getElem_of_mem hb
      obtain ⟨c, -, hc, hfree⟩ := hfree k hk
      rw [List.getElem?_eq_getElem hk] at hc
      cases hc
      rw [← hfree]
      exact hall k hk
    · intro hall k hk
      obtain ⟨b, hb, -, hfree⟩ := hfree k hk
      rw [hfree]
      exact hall b hb
  rw [layoutAfter, placeInto, hlen]
  dsimp only
  cases hs : Pack.slot ((m.layout.map (without (m.removedBefore cfg key))).map Record.free)
      ((compressRecord sh cfg record).length + sizeofRDF) m.blockCount with
  | some n =>
    have hnot : ¬ m.Appends sh cfg key record := fun happ => by
      rw [hslot.mpr happ] at hs
      cases hs
    dsimp only
    rw [if_neg hnot, List.length_set, hlen, Nat.add_zero]
  | none =>
    dsimp only
    rw [if_pos (hslot.mp hs), List.length_append, hlen]
    rfl

theorem checkRecordLimit_asks {st : WriteStatus}
    (hlim : m.checkRecordLimit cfg key = some (st, m')) (hst : st.needDefrag = true) :
    limitReached cfg m.blockIndex = true ∧ st.oldRecord = false := by
  rw [checkRecordLimit] at hlim
  split at hlim
  case isTrue hl =>
    obtain ⟨⟨e, m1⟩, -, hlim⟩ := Option.bind_eq_some_iff.mp hlim
    cases e with
    | refused =>
      cases hlim
      cases hst
    | passed =>
      cases hlim
      exact ⟨hl, rfl⟩
  case isFalse =>
    cases hlim
    cases hst

theorem tryUpdate_index (hup : m.tryUpdate key record = some (false, m')) :
    m'.blockIndex = m.indexAfterUpdate key := by
  rw [tryUpdate] at hup
  cases hl : m.blockIndex.lookup key with
  | none =>
    rw [hl] at hup
    cases hup
    exact (AvlTable.erase_of_notMem (AList.lookup_eq_none.mp hl)).symm
  | some n =>
    rw [hl] at hup
    obtain ⟨b, -, hup⟩ := Option.bind_eq_some_iff.mp hup
    obtain ⟨⟨st, b'⟩, -, hup⟩ := Option.bind_eq_some_iff.mp hup
    dsimp only at hup
    by_cases hst : st = .ok
    · rw [if_pos hst] at hup
      cases hup
    · rw [if_neg hst] at hup
      cases hup
      rfl

/-- The phases of a write that asks for a defragmentation, for any manager. -/
theorem writeRecord_asks {st : WriteStatus}
    (hw : m.writeRecord sh cfg key record = some (st, m')) (hst : st.needDefrag = true) :
    record.length ≤ MAX_RECORD_SIZE ∧ ∃ m1 m2 st1 reallocated,
      m.tryUpdate key (compressRecord sh cfg record) = some (false, m1)
        ∧ m1.checkRecordLimit cfg key = some (st1, m2) ∧ st1.needDefrag = true
        ∧ writeLoop key (compressRecord sh cfg record) (m2.blockCount + 2) m2.blockCount false m2
          = some (reallocated, m') := by
  rw [writeRecord] at hw
  by_cases hbig : MAX_RECORD_SIZE < record.length
  · rw [if_pos hbig] at hw
    cases hw
    cases hst
  rw [if_neg hbig] at hw
  obtain ⟨⟨updated, m1⟩, hup, hw⟩ := Option.bind_eq_some_iff.mp hw
  cases updated with
  | true =>
    cases hw
    cases hst
  | false =>
    obtain ⟨⟨st1, m2⟩, hlim, hw⟩ := Option.bind_eq_some_iff.mp hw
    dsimp only at hw
    by_cases hold : st1.oldRecord = true
    · rw [if_pos hold] at hw
      cases hw
      rw [(checkRecordLimit_asks hlim hst).2] at hold
      cases hold
    · rw [if_neg hold] at hw
      obtain ⟨⟨reallocated, m3⟩, hloop, hw⟩ := Option.bind_eq_some_iff.mp hw
      cases hw
      exact ⟨Nat.not_lt.mp hbig, m1, m2, st1, reallocated, hup, hlim, hst, hloop⟩

theorem writeRecord_limited {st : WriteStatus}
    (hw : m.writeRecord sh cfg key record = some (st, m')) (hst : st.needDefrag = true) :
    limitReached cfg (m.indexAfterUpdate key) = true := by
  obtain ⟨-, m1, m2, st1, reallocated, hup, hlim, hst1, -⟩ := writeRecord_asks hw hst
  rw [← tryUpdate_index hup]
  exact (checkRecordLimit_asks hlim hst1).1

/-- The keys that the limit looks at: the key of the record is not among them. -/
theorem count_indexAfterUpdate (m : Blman) (key : UInt64) :
    (m.indexAfterUpdate key).count + 1
      = m.blockIndex.count + if key ∈ m.blockIndex then 0 else 1 := by
  rw [indexAfterUpdate]
  by_cases hkey : key ∈ m.blockIndex
  · rw [if_pos hkey, AvlTable.count_erase hkey, Nat.add_zero]
  · rw [if_neg hkey, AvlTable.erase_of_notMem hkey]

/-- What such a write leaves. -/
theorem writeRecord_layout (h : m.Inv) {st : WriteStatus}
    (hw : m.writeRecord sh cfg key record = some (st, m')) (hst : st.needDefrag = true) :
    m.Compacts sh cfg key record ∧ m'.Inv ∧ m'.layout = m.layoutAfter sh cfg key record
      ∧ m'.blockIndex.count + (evictedBy cfg key (m.indexAfterUpdate key)).length
        = (m.indexAfterUpdate key).count + 1 := by
  obtain ⟨hsize, m1, m2, st1, reallocated, hup, hlim, hst1, hloop⟩ := writeRecord_asks hw hst
  have hsize' := Nat.le_trans (length_compressRecord sh cfg record) hsize
  -- phase 1
  obtain ⟨updated, m1', hup', -, hout⟩ := tryUpdate_spec h key (compressRecord sh cfg record)
  rw [hup] at hup'
  cases hup'
  obtain ⟨hroom, hidx, -, hb1⟩ := hout rfl
  have hlayout1 := tryUpdate_layout h hup
  have hkey1 : key ∉ m1.blockIndex := by
    rw [hidx]
    exact fun hmem => (AList.mem_erase.mp hmem).1 rfl
  -- phase 2
  have hold := (checkRecordLimit_asks hlim hst1).2
  obtain ⟨hlayout2, hcount2⟩ := checkRecordLimit_layout hb1.inv hlim
  rcases checkRecordLimit_spec cfg key hb1.inv with
    ⟨st2, m2', hlim', hrefused, -, -, hdefrag, -, hb2⟩ | ⟨hlim', -⟩
  · rw [hlim] at hlim'
    cases hlim'
    have hkey2 : key ∉ m2.blockIndex := by
      intro hmem
      obtain ⟨n, hn⟩ := Option.isSome_iff_exists.mp (AList.lookup_isSome.mpr hmem)
      exact hkey1 (AList.lookup_isSome.mp (by rw [checkRecordLimit_lookup hlim hn]; rfl))
    -- phase 3
    obtain ⟨hlayout3, hcount3⟩ := writeLoop_layout hb2.inv hkey2 hsize' hloop
    obtain ⟨hreached, henough⟩ := hdefrag hst1
    rw [hidx] at hrefused hreached henough hlayout2 hcount2
    refine ⟨⟨hsize, hroom, hrefused.symm.trans hold, hreached, henough⟩,
      (writeRecord_cases h hw).inv h, ?_, ?_⟩
    · rw [hlayout3, hlayout2, hlayout1, List.map_map, layoutAfter]
      congr 1
      exact List.map_congr_left fun recs _ => without_without [key] _ recs
    · rw [hcount3, indexAfterUpdate, ← hcount2]
      omega
  · rw [hlim] at hlim'
    cases hlim'

end Write

/-! ## A defragmentation -/

section Defragment

variable (sh : Shared) (cfgs : ℕ → WriteCfg) (rows : List (List Record))

/-- The room that the records need when they are written again, each as a reader is given it. -/
def repackNeeds : List ℕ := needs sh cfgs 0 (rows.flatten.map fun r => ⟨r.key, expand sh r.data⟩)

/-- The blocks that a first fit of them takes. -/
def firstFit : ℕ := (Pack.placeAll CIDFOffset [CIDFOffset] (repackNeeds sh cfgs rows)).length

variable {sh cfgs}

/-- A defragmentation leaves the keys of the records that are not refused, in the blocks of a
first fit. -/
theorem defragmentData_counts (hz : GzipOk sh) (h : m.Inv)
    (hlim : ∀ i, LimitKept (cfgs i) m.blockIndex.count) (hne : m.blockIndex.count ≠ 0)
    (hsize : ∀ e ∈ m.expanded sh, e.data.length < 65536)
    (hd : m.defragmentData sh cfgs = some m') :
    m'.blockIndex.count = (repackNeeds sh cfgs m.layout).length
      ∧ m'.blockCount = firstFit sh cfgs m.layout := by
  rcases h.defragment_spec hz hlim hne hsize with ⟨m0, m1, hc, hd', -, hins⟩ | ⟨hd', -⟩
  · rw [hd] at hd'
    cases hd'
    have hempty : m0.blockIndex.count = 0 := by
      rw [← Option.some.inj (Eq.trans rfl hc)]
      rfl
    refine ⟨?_, ?_⟩
    · rw [hins.count, hempty, Nat.zero_add]
      rfl
    · rw [← length_frees, hins.frees, frees_create hc]
      rfl
  · rw [hd] at hd'
    cases hd'

end Defragment

end Blman

end TransDB
