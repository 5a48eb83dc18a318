/-
Lookups of a key.

`Block_ContainsKey` leaves its loop from two places with one variable: at the RDF of the
key, and behind the last RDF. The variable keeps the RDF that was read last, so in a block
with records a key that is not there is answered with the RDF of the last record and the
end of the data. The functions that call it test for `NULL`, which they get from an empty
block only.
-/
import TransDB.BlockScan
import TransDB.BlockManagerSpec

set_option autoImplicit false

namespace TransDB

open ByteList Record

namespace Block

variable {b : Block} {recs pre post : List Record} {r : Record} {key : UInt64}

/-- How a key should be answered that no record has. -/
structure AnsweredAbsent (b : Block) (key : UInt64) : Prop where
  containsKey : ∃ recordPosition, b.containsKey key = some (none, recordPosition)
  deleteRecordByKey : b.deleteRecordByKey key = some (.keyNotFound, b)
  updateRecord : ∀ pNewRecord, b.updateRecord key pNewRecord = some (.keyNotFound, b)
  getRecord : ∀ sh pData, b.getRecord sh key pData = some pData

/-- How the key of a record should be answered: with its RDF and the offset of its bytes. -/
def AnsweredPresent (b : Block) (pre : List Record) (r : Record) : Prop :=
  ∃ pRDF, b.containsKey r.key = some (some pRDF, (dataArea pre).length)
    ∧ b.loadRDF pRDF = some r.rdf ∧ load b.bytes (dataArea pre).length r.data.length = some r.data

/-- How every key should be answered. -/
structure LookupAnswered (b : Block) (key : UInt64) : Prop where
  absent : key ∉ keys b.records → b.AnsweredAbsent key
  present : ∀ pre r post, b.records = pre ++ r :: post → r.key = key → b.AnsweredPresent pre r

/-! ## A key that is there -/

theorem Holds.answeredPresent (h : b.Holds (pre ++ r :: post)) : b.AnsweredPresent pre r := by
  obtain ⟨free, flags, hs⟩ := h.shape
  exact ⟨_, containsKey_mem hs h.key_ne, hs.loadRDF, hs.loadData⟩

/-! ## A key that is not there -/

/-- A search that gives `NULL` is all that is needed. -/
theorem answeredAbsent_of_null {recordPosition : ℕ}
    (h : b.containsKey key = some (none, recordPosition)) : b.AnsweredAbsent key where
  containsKey := ⟨recordPosition, h⟩
  deleteRecordByKey := by
    rw [Block.deleteRecordByKey, h]
    rfl
  updateRecord pNewRecord := by
    rw [Block.updateRecord, h]
    rfl
  getRecord sh pData := by
    rw [Block.getRecord, h]
    rfl

theorem keys_ne (hkey : key ∉ keys recs) : ∀ r ∈ recs, r.key ≠ key := by
  rintro r hr rfl
  exact hkey (List.mem_map_of_mem hr)

/-- In an empty block the search reads no RDF. -/
theorem Holds.answeredAbsent_nil (h : b.Holds []) (key : UInt64) : b.AnsweredAbsent key := by
  obtain ⟨free, flags, hs⟩ := h.shape
  have hnull : b.containsKey key = some (none, 0) := by
    rw [containsKey_absent hs fun r hr => absurd hr List.not_mem_nil, if_pos (by decide),
      if_pos rfl]
    rfl
  exact answeredAbsent_of_null hnull

/-- In any other block it does not give `NULL`. -/
theorem Holds.containsKey_ne_null (h : b.Holds recs) (hne : recs ≠ []) (key : UInt64)
    (recordPosition : ℕ) : b.containsKey key ≠ some (none, recordPosition) := by
  intro hnull
  obtain ⟨free, flags, hs⟩ := h.shape
  by_cases hkey : key ∈ keys recs
  · obtain ⟨r, hr, rfl⟩ := List.mem_map.mp hkey
    obtain ⟨pre, post, rfl⟩ := List.append_of_mem hr
    obtain ⟨pRDF, hfound, -⟩ := h.answeredPresent
    rw [hnull] at hfound
    cases hfound
  · rw [containsKey_absent hs (keys_ne hkey), if_neg hne] at hnull
    split at hnull
    · cases hnull
    · cases hnull

/-- The search for a key that is not there gives the RDF of the last record and the end of
the data. -/
theorem Holds.containsKey_last (h : b.Holds (pre ++ [r])) (hkey : key ∉ keys (pre ++ [r]))
    (hlen : (pre ++ [r]).length < CIDFOffset / sizeofRDF) :
    b.containsKey key = some (some (CIDFOffset - sizeofRDF - sizeofRDF * pre.length),
      (dataArea (pre ++ [r])).length) := by
  obtain ⟨free, flags, hs⟩ := h.shape
  have hnil : pre ++ [r] ≠ [] := fun hnil => List.cons_ne_nil _ _ (List.append_eq_nil_iff.mp hnil).2
  rw [containsKey_absent hs (keys_ne hkey), if_pos hlen, if_neg hnil, List.length_append,
    List.length_singleton, Nat.mul_add, Nat.mul_one, Nat.add_comm, Nat.sub_sub]

/-- The last record, deleted as if it began at the end of the data: that is so if it is empty,
and otherwise the size of the first `memmove` is negative. -/
theorem Holds.deleteRecordByRDF_last (h : b.Holds (pre ++ [r])) :
    if r.data = [] then ∃ b', b.deleteRecordByRDF (CIDFOffset - sizeofRDF - sizeofRDF * pre.length)
        (dataArea (pre ++ [r])).length = some b' ∧ b'.Holds pre
    else b.deleteRecordByRDF (CIDFOffset - sizeofRDF - sizeofRDF * pre.length)
      (dataArea (pre ++ [r])).length = none := by
  obtain ⟨free, flags, hs⟩ := h.shape
  split
  case isTrue hdata =>
    have hpos : (dataArea (pre ++ [r])).length = (dataArea pre).length := by
      rw [dataArea_append, dataArea_cons, dataArea_nil, hdata, List.append_nil, List.append_nil]
    obtain ⟨b', free', hdel, hs'⟩ := deleteRecordByRDF_shape hs
    rw [List.append_nil] at hs'
    have hnd := h.nodup
    rw [keys, List.map_append] at hnd
    rw [hpos]
    exact ⟨b', hdel, ⟨free', _, hs'⟩, (List.nodup_append.mp hnd).1⟩
  case isFalse hdata =>
    have hneg : ((dataArea (pre ++ [r])).length : Int)
        - ((dataArea (pre ++ [r])).length + r.data.length : ℕ) < 0 := by
      have hpos := List.length_pos_iff.mpr hdata
      omega
    have hmove : b.memmoveInt (dataArea (pre ++ [r])).length
        ((dataArea (pre ++ [r])).length + r.data.length)
        ((dataArea (pre ++ [r])).length - ((dataArea (pre ++ [r])).length + r.data.length : ℕ))
        = none := by
      rw [memmoveInt, if_neg (Int.ne_of_lt hneg), if_pos hneg]
    rw [deleteRecordByRDF, hs.loadRDF, Option.bind_eq_bind, Option.bind_some, hs.getCIDF]
    dsimp only [Record.rdf]
    rw [hmove]
    rfl

/-- What `Block_DeleteRecordByKey` does for a key that is not there: it takes the last record
for it. -/
theorem Holds.deleteRecordByKey_absent (h : b.Holds (pre ++ [r])) (hkey : key ∉ keys (pre ++ [r]))
    (hlen : (pre ++ [r]).length < CIDFOffset / sizeofRDF) :
    if r.data = [] then ∃ b', b.deleteRecordByKey key = some (.ok, b') ∧ b'.Holds pre
    else b.deleteRecordByKey key = none := by
  rw [Block.deleteRecordByKey, h.containsKey_last hkey hlen, Option.bind_eq_bind, Option.bind_some]
  dsimp only
  have hdel := h.deleteRecordByRDF_last
  by_cases hdata : r.data = []
  · rw [if_pos hdata] at hdel ⊢
    obtain ⟨b', hdel, hb'⟩ := hdel
    rw [hdel]
    exact ⟨b', rfl, hb'⟩
  · rw [if_neg hdata] at hdel ⊢
    rw [hdel]
    rfl

/-- `Block_UpdateRecord` of a key that is not there, with as many bytes as the last record has:
they go behind it, and if there is room for them the records are those there were. -/
theorem Holds.updateRecord_absent_same (h : b.Holds (pre ++ [r]))
    (hkey : key ∉ keys (pre ++ [r])) (hlen : (pre ++ [r]).length < CIDFOffset / sizeofRDF)
    {data : List UInt8} (hdata : data.length = r.data.length)
    (hfit : data.length ≤ b.getCIDF.m_amoutOfFreeSpace) :
    ∃ b', b.updateRecord key data = some (.ok, b') ∧ b'.Holds (pre ++ [r]) := by
  obtain ⟨free, flags, hs⟩ := h.shape
  have ht := hs.total
  rw [hs.getCIDF] at hfit
  obtain ⟨c, hc⟩ : ∃ c : CIDF, c = ⟨free.length, (dataArea (pre ++ [r])).length, flags⟩ := ⟨_, rfl⟩
  simp only [CIDFOffset, BLOCK_SIZE, sizeofCIDF] at ht
  have hb0 : b.bytes = dataArea (pre ++ [r]) ++ free.take data.length
      ++ (free.drop data.length ++ rdfArea (pre ++ [r]) ++ c.toBytes) := by
    rw [hs, layout, ← hc]
    simp only [List.append_assoc]
    rw [← List.append_assoc (free.take _), List.take_append_drop]
  have htake : data.length = (free.take data.length).length := by
    rw [List.length_take, Nat.min_eq_left hfit]
  obtain ⟨b1, hb1, hbytes1⟩ := memcpy_of_append hb0 (dataArea (pre ++ [r])).length rfl htake
  have hbytes1' : b1.bytes = (dataArea (pre ++ [r]) ++ (data ++ free.drop data.length)
      ++ rdfArea (pre ++ [r])) ++ c.toBytes := by
    rw [hbytes1]
    simp only [List.append_assoc]
  have hfree : (data ++ free.drop data.length).length = free.length := by
    rw [List.length_append, List.length_drop]
    dsimp only at hfit
    omega
  have hcidf1 : b1.getCIDF = c := by
    refine getCIDF_of_append hbytes1' ?_ ?_
    · rw [hc]
      dsimp only
      omega
    · rw [hc]
      dsimp only
      omega
  refine ⟨b1.putCIDF { c with m_flags := c.m_flags ||| eBLF_Dirty }, ?_,
    ⟨data ++ free.drop data.length, flags ||| eBLF_Dirty, ?_⟩, h.nodup⟩
  · rw [updateRecord, h.containsKey_last hkey hlen, Option.bind_eq_bind, Option.bind_some]
    simp only [hs.loadRDF, Option.bind_eq_bind, Option.bind_some, Record.rdf, hdata, if_true]
    rw [hb1, Option.bind_some, hcidf1]
    rfl
  · rw [Shape, putCIDF_of_append hbytes1', layout, hfree, hc]

/-- The same with another number of bytes: an empty last record makes way for the new one. -/
theorem Holds.updateRecord_absent_other (h : b.Holds (pre ++ [r]))
    (hkey : key ∉ keys (pre ++ [r])) (hlen : (pre ++ [r]).length < CIDFOffset / sizeofRDF)
    {data : List UInt8} (hdata : data.length ≠ r.data.length) :
    if r.data = [] then
      ∃ b1 : Block, b.updateRecord key data = b1.writeRecord key data ∧ b1.Holds pre
    else b.updateRecord key data = none := by
  obtain ⟨free, flags, hs⟩ := h.shape
  rw [updateRecord, h.containsKey_last hkey hlen, Option.bind_eq_bind, Option.bind_some]
  simp only [hs.loadRDF, Option.bind_eq_bind, Option.bind_some, Record.rdf, if_neg hdata]
  have hdel := h.deleteRecordByRDF_last
  by_cases hempty : r.data = []
  · rw [if_pos hempty] at hdel ⊢
    obtain ⟨b1, hdel, hb1⟩ := hdel
    rw [hdel]
    exact ⟨b1, rfl, hb1⟩
  · rw [if_neg hempty] at hdel ⊢
    rw [hdel]
    rfl

/-- A key is answered as it should be if and only if it is in the block, or nothing is. -/
theorem lookup_answered_iff (hb : b.Valid) (key : UInt64) :
    b.LookupAnswered key ↔ key ∈ keys b.records ∨ b.records = [] := by
  have hh : b.Holds b.records := hb
  constructor
  · intro h
    by_contra hnot
    obtain ⟨hkey, hne⟩ := not_or.mp hnot
    obtain ⟨recordPosition, hnull⟩ := (h.absent hkey).containsKey
    exact hh.containsKey_ne_null hne key recordPosition hnull
  · intro hcase
    refine ⟨fun hkey => ?_, fun pre r post hsplit _ => ?_⟩
    · have hnil := hcase.resolve_left hkey
      rw [hnil] at hh
      exact hh.answeredAbsent_nil key
    · rw [hsplit] at hh
      exact hh.answeredPresent

/-- Every key of a new block, and the key of its first record. -/
theorem lookup_answered_iff_one : (∀ key, Blman.zeroBlock.initBlock.LookupAnswered key)
    ∧ ∃ b, Blman.zeroBlock.initBlock.writeRecord 7 [1, 2, 3] = some (.ok, b)
      ∧ b.LookupAnswered 7 := by
  have hfit : ([1, 2, 3] : List UInt8).length + sizeofRDF
      ≤ Blman.zeroBlock.initBlock.getCIDF.m_amoutOfFreeSpace := by
    rw [initBlock_free]
    decide
  obtain ⟨b, hw, hb, -⟩ := initBlock_holds.writeRecord_fits (List.not_mem_nil (a := 7)) hfit
  refine ⟨fun key => ?_, b, hw, ?_⟩
  · exact (lookup_answered_iff initBlock_holds.valid key).mpr (Or.inr initBlock_holds.records_eq)
  · refine (lookup_answered_iff hb.valid 7).mpr (Or.inl ?_)
    rw [hb.records_eq]
    exact List.mem_singleton.mpr rfl

/-- A block with the one record 7. Key 8 is taken for it: it is deleted if it is empty, and
otherwise the deletion leaves the block. -/
theorem absent_found :
    (∃ b, Blman.zeroBlock.initBlock.writeRecord 7 [] = some (.ok, b) ∧ b.Valid
        ∧ 8 ∉ keys b.records ∧ ¬ b.LookupAnswered 8
        ∧ ∃ b', b.deleteRecordByKey 8 = some (.ok, b') ∧ b'.records = [])
      ∧ ∃ b, Blman.zeroBlock.initBlock.writeRecord 7 [1, 2, 3] = some (.ok, b) ∧ b.Valid
        ∧ 8 ∉ keys b.records ∧ ¬ b.LookupAnswered 8 ∧ b.deleteRecordByKey 8 = none := by
  have hnew : (7 : UInt64) ∉ keys [] := List.not_mem_nil
  have hold : ∀ data : List UInt8, (8 : UInt64) ∉ keys ([] ++ [⟨7, data⟩]) := fun data hmem => by
    cases List.mem_singleton.mp hmem
  have hlen : ∀ data : List UInt8, ([] ++ [(⟨7, data⟩ : Record)]).length < CIDFOffset / sizeofRDF :=
    fun _ => by
      rw [List.nil_append, List.length_singleton]
      decide
  have hlook : ∀ {b : Block} {data : List UInt8}, b.Holds [⟨7, data⟩] →
      b.Valid ∧ 8 ∉ keys b.records ∧ ¬ b.LookupAnswered 8 := by
    intro b data hb
    have hkey : 8 ∉ keys b.records := by
      rw [hb.records_eq]
      exact hold data
    refine ⟨hb.valid, hkey, fun hok => ?_⟩
    rcases hok.absent hkey with ⟨⟨recordPosition, hnull⟩, -⟩
    exact hb.containsKey_ne_null (List.cons_ne_nil _ _) 8 recordPosition hnull
  have hroom : ∀ data : List UInt8, data.length ≤ 3 → data.length + sizeofRDF
      ≤ Blman.zeroBlock.initBlock.getCIDF.m_amoutOfFreeSpace := by
    intro data hdata
    rw [initBlock_free]
    simp only [sizeofRDF, CIDFOffset, BLOCK_SIZE, sizeofCIDF]
    omega
  constructor
  · obtain ⟨b, hw, hb, -⟩ := initBlock_holds.writeRecord_fits hnew (hroom [] (by decide))
    obtain ⟨hv, hkey, hnot⟩ := hlook hb
    have hdel := Holds.deleteRecordByKey_absent hb (hold []) (hlen [])
    rw [if_pos rfl] at hdel
    obtain ⟨b', hdel, hb'⟩ := hdel
    exact ⟨b, hw, hv, hkey, hnot, b', hdel, hb'.records_eq⟩
  · obtain ⟨b, hw, hb, -⟩ := initBlock_holds.writeRecord_fits hnew (hroom [1, 2, 3] (by decide))
    obtain ⟨hv, hkey, hnot⟩ := hlook hb
    have hdel := Holds.deleteRecordByKey_absent hb (hold [1, 2, 3]) (hlen [1, 2, 3])
    rw [if_neg (List.cons_ne_nil _ _)] at hdel
    exact ⟨b, hw, hv, hkey, hnot, hdel⟩

end Block

end TransDB
