/-
When a write does not return.

`writeRecord` gives `none` in two cases: the limit loop never leaves, or all
blocks are full and one more cannot be counted. The first is a property of the
index, the second needs to know what each block has free at the end of phase 2.
That is a function of the records that are in the block now and of the keys the
first two phases take out (`roomWithout`), so both conditions are conditions on
the manager before the call.
-/
import TransDB.BlockManagerPack

set_option autoImplicit false

namespace TransDB

open Record

/-! ## What is free in a block -/

namespace Record

theorem mem_iff_find {recs : List Record} (h : (keys recs).Nodup) (r : Record) :
    r ∈ recs ↔ find recs r.key = some r.data := by
  constructor
  · intro hr
    obtain ⟨pre, post, rfl⟩ := List.append_of_mem hr
    exact find_middle h
  · intro hf
    rw [find, Option.map_eq_some_iff] at hf
    obtain ⟨r', hfind, hdata⟩ := hf
    have hkey : r'.key = r.key := by simpa using List.find?_some hfind
    have hr : r' = r := by
      cases r
      cases r'
      cases hkey
      cases hdata
      rfl
    exact hr ▸ List.mem_of_find?_eq_some hfind

/-- What a list of records takes of a block. -/
def room (recs : List Record) : ℕ := (recs.map fun r => r.data.length + sizeofRDF).sum

theorem room_eq (recs : List Record) :
    room recs = (dataArea recs).length + sizeofRDF * recs.length := by
  induction recs with
  | nil => rfl
  | cons r recs ih =>
    have hcons : room (r :: recs) = r.data.length + sizeofRDF + room recs := List.sum_cons
    rw [hcons, ih, dataArea_cons, List.length_append, List.length_cons, Nat.mul_succ]
    omega

theorem room_perm {recs recs' : List Record} (h : recs.Perm recs') : room recs = room recs' :=
  (h.map _).sum_nat

end Record

namespace Block

/-- What block `b` has free once the keys `removed` are out of it. -/
def roomWithout (b : Block) (removed : List UInt64) : ℕ :=
  CIDFOffset - room (b.records.filter fun r => r.key ∉ removed)

theorem Valid.free_eq {b : Block} (h : b.Valid) :
    b.getCIDF.m_amoutOfFreeSpace = CIDFOffset - room b.records := by
  have hfree := Holds.freeSpace h
  rw [room_eq]
  omega

theorem Valid.mem_records {b : Block} (h : b.Valid) (r : Record) :
    r ∈ b.records ↔ b.get r.key = some r.data := mem_iff_find (Holds.nodup h) r

/-- A block that has lost the keys `removed`, and nothing else. -/
theorem Valid.free_without {b b' : Block} (h : b.Valid) (h' : b'.Valid) {removed : List UInt64}
    (hget : ∀ k, b'.get k = if k ∈ removed then none else b.get k) :
    b'.getCIDF.m_amoutOfFreeSpace = b.roomWithout removed := by
  have hnodup : ∀ {c : Block}, c.Valid → c.records.Nodup := fun hc => (Holds.nodup hc).of_map _
  have hperm : b'.records.Perm (b.records.filter fun r => r.key ∉ removed) := by
    refine (List.perm_ext_iff_of_nodup (hnodup h') ((hnodup h).filter _)).mpr fun r => ?_
    rw [List.mem_filter, h'.mem_records, h.mem_records, hget, decide_eq_true_eq]
    by_cases hr : r.key ∈ removed
    · simp only [hr, if_true, not_true_eq_false, and_false, reduceCtorEq]
    · simp only [hr, if_false, not_false_eq_true, and_true]
  rw [h'.free_eq, roomWithout, room_perm hperm]

end Block

/-! ## The search for a block with room -/

theorem Pack.slot_eq_none {frees : List ℕ} {need : ℕ} (n : ℕ) :
    slot frees need n = none ↔ ∀ k, k < n → frees.getD k 0 < need := by
  induction n with
  | zero => exact ⟨fun _ k hk => absurd hk (Nat.not_lt_zero k), fun _ => rfl⟩
  | succ n ih =>
    rw [slot]
    split
    case isTrue hfit =>
      constructor
      · rintro ⟨⟩
      · intro hall
        exact absurd (hall n (Nat.lt_succ_self n)) (Nat.not_lt.mpr hfit)
    case isFalse hfull =>
      rw [ih]
      constructor
      · intro hall k hk
        rcases Nat.lt_succ_iff_lt_or_eq.mp hk with hk | rfl
        · exact hall k hk
        · exact Nat.not_le.mp hfull
      · intro hall k hk
        exact hall k (Nat.lt_succ_of_lt hk)

namespace Blman

variable {m : Blman}

/-- A block's records are those whose key the index sends to it. -/
theorem Inv.get_eq (h : m.Inv) {n : ℕ} {b : Block} (hb : m.blocks[n]? = some b) (k : UInt64) :
    b.get k = if m.blockIndex.lookup k = some n then m.contents k else none := by
  split
  case isTrue hl =>
    obtain ⟨b', hb', hne⟩ := (h.index k n).mp hl
    rw [hb] at hb'
    cases hb'
    obtain ⟨d, hd⟩ := Option.ne_none_iff_exists'.mp hne
    rw [hd, h.contents_eq_some.mpr ⟨n, b, hb, hd⟩]
  case isFalse hl =>
    by_contra hne
    exact hl ((h.index k n).mpr ⟨b, hb, hne⟩)

theorem deleteRecordByNode_index {m' : Blman} {k : UInt64} {n : ℕ}
    (hd : m.deleteRecordByNode k n = some m') : m'.blockIndex = m.blockIndex.erase k := by
  simp only [deleteRecordByNode, Option.bind_eq_bind, Option.bind_eq_some_iff, Option.pure_def,
    Option.some.injEq] at hd
  obtain ⟨b, -, p, -, rfl⟩ := hd
  rfl

/-- The limit loop takes keys out of the index and moves none. -/
theorem recordLimitLoop_lookup {limit : ℕ → Int} {recordkey : UInt64} {k : UInt64} {n : ℕ}
    (fuel : ℕ) : ∀ (i : ℕ) (m m' : Blman) (e : LimitExit),
      recordLimitLoop limit recordkey fuel i m = some (e, m') →
      m'.blockIndex.lookup k = some n → m.blockIndex.lookup k = some n := by
  induction fuel with
  | zero =>
    intro i m m' e hloop
    cases hloop
  | succ fuel ih =>
    intro i m m' e hloop hk
    rw [recordLimitLoop] at hloop
    split at hloop
    case isFalse =>
      cases hloop
      exact hk
    case isTrue =>
      split at hloop
      case h_1 => cases hloop
      case h_2 node hnode =>
        split at hloop
        case isTrue =>
          cases hloop
          exact hk
        case isFalse =>
          simp only [Option.bind_eq_bind, Option.bind_eq_some_iff] at hloop
          obtain ⟨blockNumber, -, m1, hdel, hloop⟩ := hloop
          have hk1 := ih _ _ _ _ hloop hk
          rw [deleteRecordByNode_index hdel] at hk1
          have hne : k ≠ node := by
            rintro rfl
            rw [AList.lookup_erase] at hk1
            cases hk1
          rwa [AList.lookup_erase_ne hne] at hk1

theorem checkRecordLimit_lookup {m' : Blman} {cfg : WriteCfg} {recordkey k : UInt64}
    {st : WriteStatus} {n : ℕ} (hlim : m.checkRecordLimit cfg recordkey = some (st, m'))
    (hk : m'.blockIndex.lookup k = some n) : m.blockIndex.lookup k = some n := by
  rw [checkRecordLimit] at hlim
  split at hlim
  case isFalse =>
    cases hlim
    exact hk
  case isTrue =>
    simp only [Option.bind_eq_bind, Option.bind_eq_some_iff] at hlim
    obtain ⟨⟨e, m1⟩, hloop, hlim⟩ := hlim
    cases e with
    | refused =>
      cases hlim
      exact recordLimitLoop_lookup _ _ _ _ _ hloop hk
    | passed =>
      cases hlim
      exact recordLimitLoop_lookup _ _ _ _ _ hloop hk

/-- Two managers of which the second has lost the keys `removed`, and nothing else. -/
theorem Inv.free_without {m' : Blman} (h : m.Inv) (h' : m'.Inv) {removed : List UInt64}
    (hcontents : m'.contents = m.contents.removeKeys removed)
    (hindex : ∀ k n, m'.blockIndex.lookup k = some n → m.blockIndex.lookup k = some n)
    {n : ℕ} {b b' : Block} (hb : m.blocks[n]? = some b) (hb' : m'.blocks[n]? = some b') :
    b'.getCIDF.m_amoutOfFreeSpace = b.roomWithout removed := by
  refine (h.valid b (List.mem_of_getElem? hb)).free_without
    (h'.valid b' (List.mem_of_getElem? hb')) fun k => ?_
  rw [h'.get_eq hb', h.get_eq hb, hcontents, RecordMap.removeKeys]
  by_cases hk : k ∈ removed
  · rw [if_pos hk, if_pos hk, ite_self]
  · rw [if_neg hk, if_neg hk]
    by_cases hl : m.blockIndex.lookup k = some n
    · by_cases hl' : m'.blockIndex.lookup k = some n
      · rw [if_pos hl, if_pos hl']
      · -- the key is in no other block of `m'`, so it is not in `m` either
        rw [if_neg hl', if_pos hl]
        by_contra hne
        have hmem : m'.contents k ≠ none := by
          rw [hcontents, RecordMap.removeKeys, if_neg hk]
          exact fun hh => hne hh.symm
        obtain ⟨j, hj⟩ := Option.isSome_iff_exists.mp
          (AList.lookup_isSome.mpr (h'.contents_ne_none.mp hmem))
        have hij : n = j := Option.some.inj (hl.symm.trans (hindex k j hj))
        exact hl' (hij ▸ hj)
    · rw [if_neg hl, if_neg (fun hh => hl (hindex k n hh))]

/-! ## The two ways not to return -/

section Write

variable (sh : Shared) (cfg : WriteCfg) (m) (recordkey : UInt64) (record : List UInt8)

/-- The keys that are gone when phase 3 begins. -/
def removedBefore : List UInt64 :=
  recordkey :: evictedBy cfg recordkey (m.indexAfterUpdate recordkey)

/-- The limit loop does not leave. -/
def StuckInLimit : Prop :=
  record.length ≤ MAX_RECORD_SIZE
    ∧ ∃ m', m.tryUpdate recordkey (compressRecord sh cfg record) = some (false, m')
      ∧ m'.checkRecordLimit cfg recordkey = none

/-- The record has to go to a new block, and the counter is at its end. -/
structure Overflows : Prop where
  size : record.length ≤ MAX_RECORD_SIZE
  moves : m.roomFor recordkey (compressRecord sh cfg record).length = false
  accepted : refusedBy cfg recordkey (m.indexAfterUpdate recordkey) = false
  last : m.blockCount = 65535
  packed : ∀ b ∈ m.blocks, b.roomWithout (m.removedBefore cfg recordkey)
    < (compressRecord sh cfg record).length + sizeofRDF

variable {sh cfg m recordkey record}

/-- Phase 3 on the manager `m2` that phases 1 and 2 leave of `m`. -/
theorem writeLoop_none_iff {m2 : Blman} (h : m.Inv) (h2 : m2.Inv)
    (hcount : m2.blockCount = m.blockCount) {removed : List UInt64}
    (hcontents : m2.contents = m.contents.removeKeys removed)
    (hindex : ∀ k n, m2.blockIndex.lookup k = some n → m.blockIndex.lookup k = some n)
    (hkey : recordkey ∉ m2.blockIndex) (hsize : record.length ≤ MAX_RECORD_SIZE) :
    writeLoop recordkey record (m2.blockCount + 2) m2.blockCount false m2 = none
      ↔ m.blockCount = 65535 ∧ ∀ b ∈ m.blocks, b.roomWithout removed
        < record.length + sizeofRDF := by
  have hpos : 0 < m2.blockCount := List.length_pos_of_ne_nil h2.nonempty
  have hlt := h.count_lt
  obtain ⟨n, hn⟩ : ∃ n, m2.blockCount = n + 1 := ⟨m2.blockCount - 1, by omega⟩
  have hplaced := writeLoop_placed h2 hkey hsize n (m2.blockCount + 2) (by omega) (by omega)
  rw [← hn] at hplaced
  have hfree : ∀ (k : ℕ) (b : Block), m.blocks[k]? = some b →
      m2.frees.getD k 0 = b.roomWithout removed := by
    intro k b hb
    have hk : k < m2.blocks.length := by
      rw [← blockCount, hcount]
      exact (List.getElem?_eq_some_iff.mp hb).1
    have hb2 : m2.blocks[k]? = some m2.blocks[k] := List.getElem?_eq_getElem hk
    rw [frees_getD hb2]
    exact h.free_without h2 hcontents hindex hb hb2
  have hslot : Pack.slot m2.frees (record.length + sizeofRDF) m2.blockCount = none
      ↔ ∀ b ∈ m.blocks, b.roomWithout removed < record.length + sizeofRDF := by
    rw [Pack.slot_eq_none]
    constructor
    · intro hall b hb
      obtain ⟨k, hk, rfl⟩ := List.getElem_of_mem hb
      rw [← hfree k _ (List.getElem?_eq_getElem hk)]
      exact hall k (hcount ▸ hk)
    · intro hall k hk
      rw [hcount] at hk
      rw [hfree k _ (List.getElem?_eq_getElem hk)]
      exact hall _ (List.getElem_mem hk)
  rw [← hslot]
  constructor
  · intro hnone
    cases hs : Pack.slot m2.frees (record.length + sizeofRDF) m2.blockCount with
    | some k =>
      obtain ⟨m', hres, -⟩ := hplaced.here k hs
      rw [hnone] at hres
      cases hres
    | none =>
      refine ⟨?_, rfl⟩
      by_contra hne
      obtain ⟨m', hres, -⟩ := hplaced.fresh hs (by omega)
      rw [hnone] at hres
      cases hres
  · rintro ⟨hlast, hs⟩
    exact hplaced.full hs (by omega)

/-- A write that does not return is in the limit loop or out of blocks. -/
theorem Inv.writeRecord_none_iff (h : m.Inv) :
    m.writeRecord sh cfg recordkey record = none
      ↔ m.StuckInLimit sh cfg recordkey record ∨ m.Overflows sh cfg recordkey record := by
  rw [writeRecord]
  by_cases hbig : MAX_RECORD_SIZE < record.length
  · rw [if_pos hbig]
    constructor
    · rintro ⟨⟩
    · rintro (⟨hsize, -⟩ | ⟨hsize, -⟩)
      · omega
      · omega
  rw [if_neg hbig]
  have hsize : record.length ≤ MAX_RECORD_SIZE := by omega
  have hsize' := Nat.le_trans (length_compressRecord sh cfg record) hsize
  obtain ⟨updated, m1, hup, hin, hout⟩ := tryUpdate_spec h recordkey (compressRecord sh cfg record)
  simp only [StuckInLimit, hup, Option.bind_eq_bind, Option.bind_some, Option.pure_def]
  cases updated with
  | true =>
    obtain ⟨-, hroom, -⟩ := hin rfl
    constructor
    · rintro ⟨⟩
    · rintro (⟨-, m', heq, -⟩ | hov)
      · cases heq
      · rw [hov.moves] at hroom
        cases hroom
  | false =>
    obtain ⟨hroom, hidx, -, hb1⟩ := hout rfl
    rcases checkRecordLimit_spec cfg recordkey hb1.inv with
      ⟨st, m2, hlim, hst, -, -, -, -, hb2⟩ | ⟨hlim, -⟩
    · have hstuck : ¬ (record.length ≤ MAX_RECORD_SIZE ∧ ∃ m', some (false, m1) = some (false, m')
          ∧ m'.checkRecordLimit cfg recordkey = none) := by
        rintro ⟨-, m', heq, hnone⟩
        cases heq
        rw [hlim] at hnone
        cases hnone
      rw [hidx] at hst hb2
      rw [hb1.contents, RecordMap.removeKeys_cons] at hb2
      simp only [hlim, Option.bind_some, Bool.false_eq_true, if_false]
      rcases hold : st.oldRecord with _ | _
      · have hkey2 : recordkey ∉ m2.blockIndex := by
          rw [← hb2.inv.contents_eq_none, hb2.contents, RecordMap.removeKeys,
            if_pos List.mem_cons_self]
        have hindex : ∀ k n, m2.blockIndex.lookup k = some n → m.blockIndex.lookup k = some n := by
          intro k n hk
          have hk1 := checkRecordLimit_lookup hlim hk
          have hne : k ≠ recordkey := by
            rintro rfl
            rw [AList.lookup_eq_none.mpr hkey2] at hk
            cases hk
          rwa [hidx, AList.lookup_erase_ne hne] at hk1
        have hloop := writeLoop_none_iff h hb2.inv (hb2.count.trans hb1.count) hb2.contents hindex
          hkey2 hsize'
        simp only [Bool.false_eq_true, if_false, Option.bind_eq_none_iff, reduceCtorEq,
          imp_false]
        constructor
        · intro hnone
          obtain ⟨hlast, hpacked⟩ := hloop.mp (Option.eq_none_iff_forall_ne_some.mpr hnone)
          exact Or.inr ⟨hsize, hroom, hst.symm.trans hold, hlast, hpacked⟩
        · rintro (hs | hov)
          · exact absurd hs hstuck
          · intro p
            rw [hloop.mpr ⟨hov.last, hov.packed⟩]
            rintro ⟨⟩
      · simp only [if_true]
        constructor
        · rintro ⟨⟩
        · rintro (hs | hov)
          · exact absurd hs hstuck
          · have hfalse := hov.accepted
            rw [indexAfterUpdate, ← hst, hold] at hfalse
            cases hfalse
    · simp only [hlim, Option.bind_none, Bool.false_eq_true, if_false, true_iff]
      exact Or.inl ⟨hsize, m1, rfl, hlim⟩

/-- With the record limit off the limit loop is not entered. -/
theorem not_stuckInLimit (hoff : cfg.EnableRecordLimit = false) :
    ¬ m.StuckInLimit sh cfg recordkey record := by
  rintro ⟨-, m', -, hnone⟩
  rw [checkRecordLimit, hoff] at hnone
  cases hnone

/-- With the record limit off a write returns as long as a block can be added. -/
theorem Inv.exists_write (h : m.Inv) (hoff : cfg.EnableRecordLimit = false)
    (hcount : m.blockCount < 65535) :
    ∃ st m', m.writeRecord sh cfg recordkey record = some (st, m') := by
  cases hw : m.writeRecord sh cfg recordkey record with
  | none =>
    rcases h.writeRecord_none_iff.mp hw with hstuck | hov
    · exact absurd hstuck (not_stuckInLimit hoff)
    · exact absurd hov.last (Nat.ne_of_lt hcount)
  | some p => exact ⟨p.1, p.2, rfl⟩

end Write

end Blman

end TransDB
