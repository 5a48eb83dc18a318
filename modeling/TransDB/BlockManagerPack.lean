/-
Where a new record goes.

A write of a new key takes the last block that has room for the record and its RDF,
or a fresh block at the end. Of all blocks only the free space matters for this, so
`place` says it of a list of numbers. A manager runs out of blocks exactly when the
list would grow over what the `uint16` block counter counts.
-/
import TransDB.BlockManagerRuns

set_option autoImplicit false

namespace TransDB

open ByteList Record

/-! ## First fit, from the last -/

namespace Pack

/-- The last of the first `n` places with room for `need`. -/
def slot (frees : List ℕ) (need : ℕ) : ℕ → Option ℕ
  | 0 => none
  | n + 1 => if need ≤ frees.getD n 0 then some n else slot frees need n

/-- The room left when `need` has been put into the last place with room for it, or
into a new one with room for `size`. -/
def place (size : ℕ) (frees : List ℕ) (need : ℕ) : List ℕ :=
  match slot frees need frees.length with
  | some n => frees.set n (frees.getD n 0 - need)
  | none => frees ++ [size - need]

theorem slot_here {frees : List ℕ} {need n : ℕ} (h : need ≤ frees.getD n 0) :
    slot frees need (n + 1) = some n := by
  rw [slot, if_pos h]

theorem slot_next {frees : List ℕ} {need n : ℕ} (h : frees.getD n 0 < need) :
    slot frees need (n + 1) = slot frees need n := by
  rw [slot, if_neg (Nat.not_le.mpr h)]

theorem place_some {size : ℕ} {frees : List ℕ} {need n : ℕ}
    (h : slot frees need frees.length = some n) :
    place size frees need = frees.set n (frees.getD n 0 - need) := by
  rw [place, h]

theorem place_none {size : ℕ} {frees : List ℕ} {need : ℕ}
    (h : slot frees need frees.length = none) :
    place size frees need = frees ++ [size - need] := by
  rw [place, h]

/-- No place is given back. -/
theorem length_le_place (size : ℕ) (frees : List ℕ) (need : ℕ) :
    frees.length ≤ (place size frees need).length := by
  rw [place]
  split
  · rw [List.length_set]
  · rw [List.length_append]
    exact Nat.le_add_right _ _

/-- All of them, one after another. -/
def placeAll (size : ℕ) (frees needs : List ℕ) : List ℕ := needs.foldl (place size) frees

theorem placeAll_cons (size : ℕ) (frees : List ℕ) (need : ℕ) (needs : List ℕ) :
    placeAll size frees (need :: needs) = placeAll size (place size frees need) needs := rfl

theorem length_le_placeAll (size : ℕ) (needs : List ℕ) :
    ∀ frees : List ℕ, frees.length ≤ (placeAll size frees needs).length := by
  induction needs with
  | nil => exact fun frees => Nat.le_refl _
  | cons need needs ih =>
    intro frees
    exact Nat.le_trans (length_le_place size frees need) (ih _)

end Pack

/-! ## The free space of the blocks -/

/-- A write takes its room, or there is none. -/
theorem Block.Valid.writeRecord_free {b : Block} {k : UInt64} (hb : b.Valid) (hk : b.get k = none)
    (data : List UInt8) :
    data.length + sizeofRDF ≤ b.getCIDF.m_amoutOfFreeSpace
        ∧ (∃ b', b.writeRecord k data = some (.ok, b')
          ∧ b'.getCIDF.m_amoutOfFreeSpace
            = b.getCIDF.m_amoutOfFreeSpace - (data.length + sizeofRDF)
          ∧ b'.records = b.records ++ [⟨k, data⟩])
      ∨ b.getCIDF.m_amoutOfFreeSpace < data.length + sizeofRDF
        ∧ b.writeRecord k data = some (.noSpaceForNewData, b) := by
  by_cases hfit : data.length + sizeofRDF ≤ b.getCIDF.m_amoutOfFreeSpace
  · obtain ⟨b', hw, hh', -⟩ := Block.Holds.writeRecord_fits hb (find_eq_none.mp hk) hfit
    refine Or.inl ⟨hfit, b', hw, ?_, hh'.records_eq⟩
    have hfree := Block.Holds.freeSpace hb
    have hfree' := hh'.freeSpace
    rw [dataArea_append, dataArea_cons, dataArea_nil, List.append_nil, List.length_append,
      List.length_append, List.length_singleton, Nat.mul_add, Nat.mul_one] at hfree'
    dsimp only at hfree'
    omega
  · exact Or.inr ⟨Nat.not_le.mp hfit, Block.Holds.writeRecord_full hb k (Nat.not_le.mp hfit)⟩

theorem AvlTable.count_avlInsert {t : AvlTable} {k : UInt64} (n : ℕ) (h : k ∉ t) :
    (t.avlInsert k n).count = t.count + 1 := by
  rw [AvlTable.avlInsert_of_notMem n h, AvlTable.count, AList.entries_insert_of_notMem h]
  rfl

namespace Blman

/-- `m_amoutOfFreeSpace` of each block. -/
def frees (m : Blman) : List ℕ := m.blocks.map fun b => b.getCIDF.m_amoutOfFreeSpace

/-- The records of each block. -/
def layout (m : Blman) : List (List Record) := m.blocks.map Block.records

variable {m : Blman}

theorem layout_getD {n : ℕ} {b : Block} (hb : m.blocks[n]? = some b) :
    m.layout.getD n [] = b.records := by
  rw [layout, List.getD_eq_getElem?_getD, List.getElem?_map, hb]
  rfl

theorem length_frees (m : Blman) : m.frees.length = m.blockCount := List.length_map _

theorem frees_getD {n : ℕ} {b : Block} (hb : m.blocks[n]? = some b) :
    m.frees.getD n 0 = b.getCIDF.m_amoutOfFreeSpace := by
  rw [frees, List.getD_eq_getElem?_getD, List.getElem?_map, hb]
  rfl

theorem frees_create (h : create none = some m) : m.frees = [CIDFOffset] := by
  have hm : m = ⟨∅, [zeroBlock.initBlock]⟩ := Option.some.inj (h.symm.trans rfl)
  rw [hm, frees, List.map_singleton, Block.initBlock_free]

theorem create_count (h : create none = some m) : m.blockCount = 1 := by
  rw [← length_frees, frees_create h]
  rfl

/-- What the search does with a record, by the free space of the blocks it looks at. -/
structure Placed (m : Blman) (r : Record) (n : ℕ) (result : Option (Bool × Blman)) : Prop where
  here : ∀ k, Pack.slot m.frees (r.data.length + sizeofRDF) n = some k →
    ∃ m', result = some (false, m')
    ∧ m'.frees = m.frees.set k (m.frees.getD k 0 - (r.data.length + sizeofRDF))
    ∧ m'.blockIndex = m.blockIndex.avlInsert r.key k
    ∧ m'.layout = m.layout.set k (m.layout.getD k [] ++ [r])
  fresh : Pack.slot m.frees (r.data.length + sizeofRDF) n = none → m.blockCount + 1 < 65536 → ∃ m',
    result = some (true, m') ∧ m'.frees = m.frees ++ [CIDFOffset - (r.data.length + sizeofRDF)]
    ∧ m'.blockIndex = m.blockIndex.avlInsert r.key m.blockCount ∧ m'.layout = m.layout ++ [[r]]
  full : Pack.slot m.frees (r.data.length + sizeofRDF) n = none → ¬ m.blockCount + 1 < 65536 →
    result = none

/-- The block at `n` takes the record. -/
theorem placed_here {key : UInt64} {record : List UInt8} {n : ℕ} {b b' : Block}
    (hb : m.blocks[n]? = some b) (hn : n < 65536) (fuel : ℕ)
    (hfit : record.length + sizeofRDF ≤ b.getCIDF.m_amoutOfFreeSpace)
    (hw : b.writeRecord key record = some (.ok, b'))
    (hfree : b'.getCIDF.m_amoutOfFreeSpace
      = b.getCIDF.m_amoutOfFreeSpace - (record.length + sizeofRDF))
    (hrecs : b'.records = b.records ++ [⟨key, record⟩]) :
    m.Placed ⟨key, record⟩ (n + 1)
      (writeLoop key record (fuel + 1) (n + 1) false m) := by
  rw [← frees_getD hb] at hfit hfree
  have hslot := Pack.slot_here hfit
  refine ⟨?_, fun h => ?_, fun h => ?_⟩
  · intro k hk
    rw [hslot, Option.some.injEq] at hk
    subst hk
    refine ⟨_, writeLoop_fits hb hn fuel false hw, ?_, rfl, ?_⟩
    · rw [frees, List.map_set, hfree]
      rfl
    · rw [layout, List.map_set, hrecs, ← layout_getD hb]
      rfl
  · rw [hslot] at h
    cases h
  · rw [hslot] at h
    cases h

theorem writeLoop_placed (h : m.Inv) {key : UInt64} {record : List UInt8}
    (hkey : key ∉ m.blockIndex) (hsize : record.length ≤ MAX_RECORD_SIZE) (n : ℕ) :
    ∀ fuel : ℕ, n < m.blockCount → n + 2 ≤ fuel →
      m.Placed ⟨key, record⟩ (n + 1)
        (writeLoop key record fuel (n + 1) false m) := by
  have hcount := h.count_lt
  induction n with
  | zero =>
    intro fuel hn hfuel
    obtain ⟨fuel, rfl⟩ : ∃ k, fuel = k + 2 := ⟨fuel - 2, by omega⟩
    obtain ⟨b, hb⟩ : ∃ b, m.blocks[0]? = some b := ⟨_, List.getElem?_eq_getElem hn⟩
    rcases (h.valid b (List.mem_of_getElem? hb)).writeRecord_free (h.get_eq_none hkey hb) record with
      ⟨hfit, b', hw, hfree, hrecs⟩ | ⟨hfull, hw⟩
    · exact placed_here hb (by omega) (fuel + 1) hfit hw hfree hrecs
    · have hslot : Pack.slot m.frees (record.length + sizeofRDF) (0 + 1) = none :=
        Pack.slot_next (by rwa [frees_getD hb])
      have hloop := writeLoop_realloc hb (fuel + 1) false hw
      refine ⟨fun k hk => ?_, fun _ hlt => ?_, fun _ hlt => ?_⟩
      · rw [hslot] at hk
        cases hk
      · have hreal : m.reallocBlocks
            = some ⟨m.blockIndex, m.blocks ++ [zeroBlock.initBlock]⟩ := by
          rw [reallocBlocks, if_pos hlt]
        have hcount1 : blockCount ⟨m.blockIndex, m.blocks ++ [zeroBlock.initBlock]⟩
            = m.blockCount + 1 := by
          rw [blockCount, List.length_append]
          rfl
        have hlast : (m.blocks ++ [zeroBlock.initBlock])[m.blockCount]?
            = some zeroBlock.initBlock := List.getElem?_concat_length
        rcases Block.initBlock_valid.writeRecord_free
            (by rw [Block.initBlock_get] : zeroBlock.initBlock.get key = none) record with
          ⟨hfit, b', hw', hfree, hrecs⟩ | ⟨hfull', -⟩
        · have hset : (m.blocks ++ [zeroBlock.initBlock]).set m.blockCount b'
              = m.blocks ++ [b'] := by
            rw [blockCount, List.set_append_right _ _ (Nat.le_refl _), Nat.sub_self]
            rfl
          refine ⟨⟨m.blockIndex.avlInsert key m.blockCount,
            (m.blocks ++ [zeroBlock.initBlock]).set m.blockCount b'⟩, ?_, ?_, rfl, ?_⟩
          · rw [hloop, hreal, Option.bind_some, hcount1]
            exact writeLoop_fits hlast (by omega) fuel true hw'
          · rw [frees, hset, List.map_append, List.map_singleton, hfree, Block.initBlock_free]
            rfl
          · rw [layout, hset, List.map_append, List.map_singleton, hrecs,
              Block.initBlock_holds.records_eq]
            rfl
        · rw [Block.initBlock_free] at hfull'
          simp only [MAX_RECORD_SIZE, CIDFOffset, sizeofRDF, BLOCK_SIZE, sizeofCIDF]
            at hsize hfull'
          omega
      · rw [hloop, reallocBlocks, if_neg hlt]
        rfl
  | succ n ih =>
    intro fuel hn hfuel
    obtain ⟨fuel, rfl⟩ : ∃ k, fuel = k + 1 := ⟨fuel - 1, by omega⟩
    obtain ⟨b, hb⟩ : ∃ b, m.blocks[n + 1]? = some b := ⟨_, List.getElem?_eq_getElem hn⟩
    rcases (h.valid b (List.mem_of_getElem? hb)).writeRecord_free (h.get_eq_none hkey hb) record with
      ⟨hfit, b', hw, hfree, hrecs⟩ | ⟨hfull, hw⟩
    · exact placed_here hb (by omega) fuel hfit hw hfree hrecs
    · have hslot : Pack.slot m.frees (record.length + sizeofRDF) (n + 1 + 1)
          = Pack.slot m.frees (record.length + sizeofRDF) (n + 1) :=
        Pack.slot_next (by rwa [frees_getD hb])
      have hp := ih fuel (by omega) (by omega)
      rw [writeLoop_next hb (by omega) fuel false hw]
      refine ⟨?_, ?_, ?_⟩
      · rw [hslot]
        exact hp.here
      · rw [hslot]
        exact hp.fresh
      · rw [hslot]
        exact hp.full

variable {sh : Shared} {cfg : WriteCfg} {key : UInt64} {record : List UInt8}

/-- What a write of a new key leaves, in full. -/
structure Added (sh : Shared) (cfg : WriteCfg) (m m' : Blman) (key : UInt64)
    (record : List UInt8) : Prop where
  inv : m'.Inv
  contents : m'.contents
    = Function.update m.contents key (some (compressRecord sh cfg record))
  frees : m'.frees
    = Pack.place CIDFOffset m.frees ((compressRecord sh cfg record).length + sizeofRDF)
  count : m'.blockIndex.count = m.blockIndex.count + 1

/-- A write of a new key that stays below the record limit adds the record, if the
blocks can be counted. -/
theorem writeRecord_new (sh : Shared) (h : m.Inv) (hkey : key ∉ m.blockIndex)
    (hlim : limitReached cfg m.blockIndex = false) (hsize : record.length ≤ MAX_RECORD_SIZE) :
    (∃ st m', m.writeRecord sh cfg key record = some (st, m') ∧ m.Added sh cfg m' key record)
      ∨ m.writeRecord sh cfg key record = none
        ∧ ¬ (Pack.place CIDFOffset m.frees
          ((compressRecord sh cfg record).length + sizeofRDF)).length < 65536 := by
  have hsize' := Nat.le_trans (length_compressRecord sh cfg record) hsize
  have hpos : 0 < m.blockCount := List.length_pos_of_ne_nil h.nonempty
  obtain ⟨n, hn⟩ : ∃ n, m.blockCount = n + 1 := ⟨m.blockCount - 1, by omega⟩
  have hplaced := writeLoop_placed h hkey hsize' n (m.blockCount + 2) (by omega) (by omega)
  have hstored := writeLoop_spec h hkey hsize' n (m.blockCount + 2) (by omega) (by omega)
  have hup : m.tryUpdate key (compressRecord sh cfg record) = some (false, m) := by
    rw [tryUpdate, AList.lookup_eq_none.mpr hkey]
  have hcheck : m.checkRecordLimit cfg key = some ({}, m) := by
    rw [checkRecordLimit, ← limitReached, hlim]
    rfl
  have hwrite : m.writeRecord sh cfg key record
      = (writeLoop key (compressRecord sh cfg record) (m.blockCount + 2) (n + 1) false m).bind
        fun p => some ({ reallocatedBlocks := p.1 }, p.2) := by
    rw [writeRecord, if_neg (Nat.not_lt.mpr hsize), ← hn]
    simp only [hup, Option.bind_eq_bind, Option.bind_some, Bool.false_eq_true, if_false, hcheck]
    rfl
  have hlen : m.frees.length = n + 1 := (length_frees m).trans hn
  cases hslot : Pack.slot m.frees ((compressRecord sh cfg record).length + sizeofRDF)
      m.frees.length with
  | some k =>
    rw [hlen] at hslot
    obtain ⟨m', hres, hfrees, hindex, -⟩ := hplaced.here k hslot
    rw [hres] at hstored hwrite
    rcases hstored with ⟨re, m1, heq, hs⟩ | ⟨hnone, -⟩
    · cases heq
      refine Or.inl ⟨_, m', hwrite, hs.inv, hs.contents, ?_, ?_⟩
      · rw [Pack.place_some (by rw [hlen]; exact hslot)]
        exact hfrees
      · rw [hindex, AvlTable.count_avlInsert k hkey]
    · cases hnone
  | none =>
    have hplace : Pack.place CIDFOffset m.frees
        ((compressRecord sh cfg record).length + sizeofRDF) = m.frees
          ++ [CIDFOffset - ((compressRecord sh cfg record).length + sizeofRDF)] :=
      Pack.place_none hslot
    rw [hlen] at hslot
    by_cases hlt : m.blockCount + 1 < 65536
    · obtain ⟨m', hres, hfrees, hindex, -⟩ := hplaced.fresh hslot hlt
      rw [hres] at hstored hwrite
      rcases hstored with ⟨re, m1, heq, hs⟩ | ⟨hnone, -⟩
      · cases heq
        refine Or.inl ⟨_, m', hwrite, hs.inv, hs.contents, ?_, ?_⟩
        · rw [hplace]
          exact hfrees
        · rw [hindex, AvlTable.count_avlInsert _ hkey]
      · cases hnone
    · have hres := hplaced.full hslot hlt
      rw [hres] at hwrite
      refine Or.inr ⟨hwrite, ?_⟩
      rw [hplace, List.length_append, hlen, ← hn]
      exact hlt

end Blman

end TransDB
