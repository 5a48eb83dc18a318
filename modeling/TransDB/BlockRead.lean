/-
Reading one record, and reading all of them.

`Block_GetRecord` and `Block_GetRecords` take a record for a gzip stream by the two
bytes at its start, which for a record of no or one byte are those of its neighbour.
What they append for it is the same. When it does not decompress, the one restores the
output buffer to where it was, and the other empties it: the response header that the
handlers have put there is lost.
-/
import TransDB.BlockScan
import TransDB.BlockManagerSpec

set_option autoImplicit false

namespace TransDB

open ByteList Record

namespace Block

section Read

variable (sh : Shared) {b : Block} {pre post : List Record} {r : Record}

/-- The memory from a record on. -/
theorem Shape.drop_data {free : List UInt8} {flags : UInt8}
    (hs : b.Shape (pre ++ r :: post) free flags) :
    ∃ rest, b.bytes.drop (dataArea pre).length = r.data ++ rest := by
  refine ⟨dataArea post ++ free ++ rdfArea (pre ++ r :: post)
    ++ CIDF.toBytes ⟨free.length, (dataArea (pre ++ r :: post)).length, flags⟩, ?_⟩
  have hbytes : b.bytes = dataArea pre ++ (r.data ++ (dataArea post ++ free
      ++ rdfArea (pre ++ r :: post)
      ++ CIDF.toBytes ⟨free.length, (dataArea (pre ++ r :: post)).length, flags⟩)) := by
    rw [hs, layout]
    simp only [dataArea_append, dataArea_cons, List.append_assoc]
  rw [hbytes, List.drop_left]

/-- `Block_GetRecord` of a key in the block. -/
theorem Holds.getRecord_eq (h : b.Holds (pre ++ r :: post)) (pData : List UInt8) :
    b.getRecord sh r.key pData
      = some (if sh.isGziped (b.bytes.drop (dataArea pre).length) = true
            ∧ sh.decompressGzip r.data = none then r.data
          else pData ++ payload sh r.data (b.bytes.drop (dataArea pre).length)) := by
  obtain ⟨free, flags, hs⟩ := h.shape
  have hbytes : load b.bytes (dataArea pre).length r.rdf.m_recordLength = some r.data := hs.loadData
  rw [getRecord, containsKey_mem hs h.key_ne, Option.bind_eq_bind, Option.bind_some]
  simp only [hs.loadRDF, Option.bind_eq_bind, Option.bind_some, hbytes, payload]
  by_cases hgz : sh.isGziped (b.bytes.drop (dataArea pre).length) = true
  · rw [if_pos hgz, if_pos hgz]
    cases hdec : sh.decompressGzip r.data with
    | none =>
      rw [if_pos ⟨hgz, rfl⟩]
      rfl
    | some out =>
      rw [if_neg (by rintro ⟨-, ⟨⟩⟩)]
      rfl
  · rw [if_neg hgz, if_neg hgz, if_neg fun hn => hgz hn.1]
    rfl

/-- The two reads of a record: the single one leaves what is in the buffer and appends
the payload that the other appends for the record, after its ten-byte prefix. -/
structure ReadsAgree (b : Block) (pre : List Record) (r : Record) (post : List Record)
    (pData : List UInt8) : Prop where
  bulk : b.getRecords sh pData = some (pData ++ items sh b 0 pre
    ++ (toLE 8 r.key.toNat
      ++ toLE 2 (payload sh r.data (b.bytes.drop (dataArea pre).length)).length
      ++ payload sh r.data (b.bytes.drop (dataArea pre).length))
    ++ items sh b ((dataArea pre).length + r.data.length) post)
  single : b.getRecord sh r.key pData
    = some (pData ++ payload sh r.data (b.bytes.drop (dataArea pre).length))

theorem Holds.bulk_iff (h : b.Holds (pre ++ r :: post)) (pData : List UInt8) :
    b.getRecords sh pData = some (pData ++ items sh b 0 pre
      ++ (toLE 8 r.key.toNat
        ++ toLE 2 (payload sh r.data (b.bytes.drop (dataArea pre).length)).length
        ++ payload sh r.data (b.bytes.drop (dataArea pre).length))
      ++ items sh b ((dataArea pre).length + r.data.length) post)
    ↔ (pre ++ r :: post).length < CIDFOffset / sizeofRDF := by
  have hitems : items sh b 0 (pre ++ r :: post) = items sh b 0 pre
      ++ (recordItem sh r.key r.data (b.bytes.drop (dataArea pre).length)
        ++ items sh b ((dataArea pre).length + r.data.length) post) := by
    rw [items_append, items_cons, Nat.zero_add]
  rw [h.getRecords_eq, ← recordItem_eq]
  by_cases hlen : (pre ++ r :: post).length < CIDFOffset / sizeofRDF
  · rw [if_pos hlen, hitems]
    simp only [List.append_assoc, hlen]
  · rw [if_neg hlen]
    exact iff_of_false (by rintro ⟨⟩) hlen

theorem Holds.single_iff (h : b.Holds (pre ++ r :: post)) (pData : List UInt8) :
    b.getRecord sh r.key pData
        = some (pData ++ payload sh r.data (b.bytes.drop (dataArea pre).length))
      ↔ pData = [] ∨ sh.isGziped (b.bytes.drop (dataArea pre).length) = false
        ∨ sh.decompressGzip r.data ≠ none := by
  rw [h.getRecord_eq, Option.some.injEq]
  by_cases hfail : sh.isGziped (b.bytes.drop (dataArea pre).length) = true
      ∧ sh.decompressGzip r.data = none
  · have hpay : payload sh r.data (b.bytes.drop (dataArea pre).length) = r.data := by
      rw [payload, if_pos hfail.1, hfail.2]
      rfl
    rw [if_pos hfail, hpay, hfail.1, hfail.2]
    constructor
    · intro heq
      exact Or.inl (List.self_eq_append_left.mp heq)
    · rintro (rfl | hgz | hdec)
      · rfl
      · cases hgz
      · exact absurd rfl hdec
  · rw [if_neg hfail]
    refine iff_of_true rfl ?_
    by_cases hgz : sh.isGziped (b.bytes.drop (dataArea pre).length) = true
    · exact Or.inr (Or.inr fun hdec => hfail ⟨hgz, hdec⟩)
    · exact Or.inr (Or.inl (Bool.not_eq_true _ |>.mp hgz))

/-- **Single read and bulk read agree and only append**, exactly when the block has
fewer than 409 records, and the buffer is empty, or the record is not taken for a gzip
stream, or it decompresses. -/
theorem reads_agree_iff (hb : b.Valid) (hrecs : b.records = pre ++ r :: post)
    (pData : List UInt8) :
    b.ReadsAgree sh pre r post pData ↔ b.records.length < 409
      ∧ (pData = [] ∨ sh.isGziped (b.bytes.drop (dataArea pre).length) = false
        ∨ sh.decompressGzip r.data ≠ none) := by
  have hh : b.Holds (pre ++ r :: post) := hrecs ▸ hb
  rw [hrecs, ← hh.single_iff]
  constructor
  · rintro ⟨hbulk, hsingle⟩
    exact ⟨(hh.bulk_iff sh pData).mp hbulk, hsingle⟩
  · rintro ⟨hlen, hsingle⟩
    exact ⟨(hh.bulk_iff sh pData).mpr hlen, hsingle⟩

end Read

/-- A record that is no gzip stream, behind a header. -/
theorem reads_agree_iff_raw : ∃ b, Blman.zeroBlock.initBlock.writeRecord 7 [1, 2, 3] = some (.ok, b)
    ∧ b.ReadsAgree Shared.plain [] ⟨7, [1, 2, 3]⟩ [] [9] := by
  have hnew : (7 : UInt64) ∉ keys [] := List.not_mem_nil
  have hfit : ([1, 2, 3] : List UInt8).length + sizeofRDF
      ≤ Blman.zeroBlock.initBlock.getCIDF.m_amoutOfFreeSpace := by
    rw [initBlock_free]
    decide
  obtain ⟨b, hw, hb, -⟩ := initBlock_holds.writeRecord_fits hnew hfit
  have hh : b.Holds ([] ++ ⟨7, [1, 2, 3]⟩ :: []) := hb
  have hrecs : b.records = [] ++ ⟨7, [1, 2, 3]⟩ :: [] := hh.records_eq
  obtain ⟨free, flags, hs⟩ := hh.shape
  obtain ⟨rest, hmem⟩ := hs.drop_data
  refine ⟨b, hw, (reads_agree_iff Shared.plain hh.valid hrecs [9]).mpr ⟨?_, Or.inr (Or.inl ?_)⟩⟩
  · rw [hrecs]
    decide
  · rw [hmem]
    rfl

/-- The two bytes that start a gzip stream, as a record, behind a header: the single
read loses the header. -/
theorem reads_agree_fails : ∃ b,
    Blman.zeroBlock.initBlock.writeRecord 7 [0x1F, 0x8B] = some (.ok, b)
      ∧ b.getRecord Shared.plain 7 [9] = some [0x1F, 0x8B]
      ∧ b.getRecords Shared.plain [9]
        = some ([9] ++ (toLE 8 7 ++ toLE 2 2 ++ [0x1F, 0x8B]))
      ∧ ¬ b.ReadsAgree Shared.plain [] ⟨7, [0x1F, 0x8B]⟩ [] [9] := by
  have hnew : (7 : UInt64) ∉ keys [] := List.not_mem_nil
  have hfit : ([0x1F, 0x8B] : List UInt8).length + sizeofRDF
      ≤ Blman.zeroBlock.initBlock.getCIDF.m_amoutOfFreeSpace := by
    rw [initBlock_free]
    decide
  obtain ⟨b, hw, hb, -⟩ := initBlock_holds.writeRecord_fits hnew hfit
  have hh : b.Holds ([] ++ ⟨7, [0x1F, 0x8B]⟩ :: []) := hb
  obtain ⟨free, flags, hs⟩ := hh.shape
  obtain ⟨rest, hmem⟩ := hs.drop_data
  have hgz : Shared.plain.isGziped (b.bytes.drop (dataArea []).length) = true := by
    rw [hmem]
    rfl
  have hsingle := hh.getRecord_eq Shared.plain [9]
  rw [if_pos ⟨hgz, rfl⟩] at hsingle
  have hpay : payload Shared.plain [0x1F, 0x8B] (b.bytes.drop (dataArea []).length)
      = [0x1F, 0x8B] := by
    rw [payload, if_pos hgz]
    rfl
  have hbulk := (hh.bulk_iff Shared.plain [9]).mpr (by decide)
  refine ⟨b, hw, hsingle, ?_, ?_⟩
  · rw [hbulk]
    dsimp only
    rw [hpay]
    rfl
  · intro h
    have hboth := hsingle.symm.trans h.single
    dsimp only at hboth
    rw [hpay] at hboth
    cases hboth

end Block

end TransDB
