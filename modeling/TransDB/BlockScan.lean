/-
The scans over the RDFs of a block.

`Block_ContainsKey`, `Block_GetRecords` and `blman_create` walk down the RDFs with
a `uint16` position and stop when it falls below their area. `rdfPosition n` is the
position after `n` RDFs. It is below the area exactly when the block has room for
one more RDF: with 409 records the position wraps to 65527, and the walk goes on
outside the block.

Behind the walk, what the two ways to read a record append to the output.
-/
import TransDB.BlockLayout

set_option autoImplicit false

namespace TransDB

open ByteList Record

namespace Block

/-! ## The walk -/

/-- The position of a scan that has passed `n` RDFs, as the `uint16` it is. -/
def rdfPosition (n : ℕ) : ℕ := u16 ((CIDFOffset - sizeofRDF : ℕ) - (sizeofRDF * n : ℕ))

/-- `RDFPosition -= sizeof(RDF)` -/
theorem rdfPosition_next (n : ℕ) :
    u16 ((rdfPosition n : ℕ) - (sizeofRDF : ℕ)) = rdfPosition (n + 1) := by
  simp only [rdfPosition, u16, sizeofRDF, CIDFOffset, BLOCK_SIZE, sizeofCIDF]
  omega

section Shape

variable {b : Block} {recs pre post : List Record} {r : Record} {free : List UInt8}
  {flags : UInt8}

theorem Shape.length_le (hs : b.Shape recs free flags) :
    sizeofRDF * recs.length ≤ CIDFOffset := by
  have ht := hs.total
  omega

/-- The turns the loops are given are more than there are records. -/
theorem Shape.length_lt (hs : b.Shape recs free flags) : recs.length < BLOCK_SIZE := by
  have hle := hs.length_le
  simp only [sizeofRDF, CIDFOffset, BLOCK_SIZE, sizeofCIDF] at hle ⊢
  omega

/-- Until it comes to the end, the position has not wrapped. -/
theorem Shape.rdfPosition_eq (hs : b.Shape (pre ++ r :: post) free flags) :
    rdfPosition pre.length = CIDFOffset - sizeofRDF * (pre ++ [r]).length := by
  have hle := hs.length_le
  rw [List.length_append, List.length_cons] at hle
  rw [List.length_append, List.length_singleton]
  simp only [rdfPosition, u16, sizeofRDF, CIDFOffset, BLOCK_SIZE, sizeofCIDF] at hle ⊢
  omega

/-- There is an RDF at the position of a scan that has not come to the end. -/
theorem Shape.scan_load (hs : b.Shape (pre ++ r :: post) free flags) :
    ¬ rdfPosition pre.length < CIDFOffset - sizeofRDF * (pre ++ r :: post).length
      ∧ b.loadRDF (rdfPosition pre.length) = some r.rdf := by
  have hload := hs.loadRDF
  rw [hs.rdfPosition_eq, List.length_append, List.length_singleton, List.length_append,
    List.length_cons]
  refine ⟨?_, ?_⟩
  · simp only [sizeofRDF]
    omega
  · rwa [Nat.mul_add, Nat.mul_one, Nat.add_comm, ← Nat.sub_sub]

/-- Behind the last RDF the scan stops, if there is room for another RDF. -/
theorem scan_stop (hlen : recs.length < CIDFOffset / sizeofRDF) :
    rdfPosition recs.length < CIDFOffset - sizeofRDF * recs.length := by
  simp only [rdfPosition, u16, sizeofRDF, CIDFOffset, BLOCK_SIZE, sizeofCIDF] at hlen ⊢
  omega

/-- Otherwise the position has wrapped, and there is no RDF. -/
theorem Shape.scan_wrap (hs : b.Shape recs free flags)
    (hlen : ¬ recs.length < CIDFOffset / sizeofRDF) :
    ¬ rdfPosition recs.length < CIDFOffset - sizeofRDF * recs.length
      ∧ b.loadRDF (rdfPosition recs.length) = none := by
  have hle := hs.length_le
  simp only [sizeofRDF, CIDFOffset, BLOCK_SIZE, sizeofCIDF] at hlen hle
  have hfull : recs.length = 409 := by omega
  have hpos : rdfPosition 409 = 65527 := rfl
  rw [hfull, hpos, Block.loadRDF, load, b.size_eq]
  exact ⟨by decide, rfl⟩

/-- `recordPosition += pRDF->m_recordLength` -/
theorem Shape.scan_data (hs : b.Shape (pre ++ r :: post) free flags) :
    u16 ((dataArea pre).length + r.rdf.m_recordLength) = (dataArea (pre ++ [r])).length := by
  have ht := hs.total
  rw [dataArea_append, dataArea_cons, List.length_append, List.length_append] at ht
  rw [dataArea_append, dataArea_cons, dataArea_nil, List.append_nil, List.length_append]
  simp only [u16, Record.rdf, CIDFOffset, BLOCK_SIZE, sizeofCIDF] at ht ⊢
  omega

end Shape

/-- A scan that may take no turn does not come to its end. -/
theorem turns_zero (n : ℕ) (p : Prop) : ¬ (n < 0 ∧ p) := fun h => Nat.not_lt_zero n h.1

/-- One turn for one record. -/
theorem turns_cons (r : Record) (post : List Record) (fuel : ℕ) (p : Prop) :
    ((r :: post).length < fuel + 1 ∧ p) ↔ (post.length < fuel ∧ p) := by
  rw [List.length_cons, Nat.add_lt_add_iff_right]

/-- The block has fewer records than RDFs fit into it. -/
def Scannable (b : Block) : Prop := b.records.length < CIDFOffset / sizeofRDF

instance (b : Block) : Decidable b.Scannable := inferInstanceAs (Decidable (_ < _))

/-! ## A key that is not in the block -/

/-- The search takes one turn for each record that is left, and one to stop. `pre` are
the records it has passed. -/
theorem containsKeyLoop_absent {b : Block} {free : List UInt8} {flags : UInt8} {key : UInt64}
    (post : List Record) :
    ∀ (pre : List Record) (fuel : ℕ) (pRDF : Option ℕ), b.Shape (pre ++ post) free flags →
      (∀ r ∈ post, r.key ≠ key) →
      b.containsKeyLoop key (CIDFOffset - sizeofRDF * (pre ++ post).length) fuel
          (rdfPosition pre.length) pRDF (dataArea pre).length
        = if post.length < fuel ∧ (pre ++ post).length < CIDFOffset / sizeofRDF then
            some (if post = [] then pRDF else some (CIDFOffset - sizeofRDF * (pre ++ post).length),
              (dataArea (pre ++ post)).length)
          else none := by
  induction post with
  | nil =>
    intro pre fuel pRDF hs _
    rcases fuel with _ | fuel
    · rw [containsKeyLoop, if_neg (turns_zero _ _)]
    rw [List.append_nil] at hs ⊢
    rw [containsKeyLoop]
    by_cases hlen : pre.length < CIDFOffset / sizeofRDF
    · rw [if_pos (scan_stop hlen), if_pos ⟨Nat.succ_pos fuel, hlen⟩, if_pos rfl]
    · obtain ⟨hnot, hload⟩ := hs.scan_wrap hlen
      rw [if_neg hnot, if_neg fun h => hlen h.2, hload]
      rfl
  | cons r post ih =>
    intro pre fuel pRDF hs hne
    rcases fuel with _ | fuel
    · rw [containsKeyLoop, if_neg (turns_zero _ _)]
    obtain ⟨hnot, hload⟩ := hs.scan_load
    have hdata := hs.scan_data
    have happ : pre ++ r :: post = (pre ++ [r]) ++ post := by
      rw [List.append_assoc, List.singleton_append]
    have hkey : ¬ r.rdf.m_key = key := hne r List.mem_cons_self
    have hlast : (if post = [] then some (rdfPosition pre.length)
        else some (CIDFOffset - sizeofRDF * (pre ++ r :: post).length))
        = some (CIDFOffset - sizeofRDF * (pre ++ r :: post).length) := by
      split
      · next hpost =>
        rw [hpost, hs.rdfPosition_eq]
      · rfl
    have hnext : rdfPosition (pre.length + 1) = rdfPosition (pre ++ [r]).length := by
      rw [List.length_append, List.length_singleton]
    rw [containsKeyLoop, if_neg hnot, hload, Option.bind_eq_bind, Option.bind_some, if_neg hkey,
      rdfPosition_next, hdata, hnext, if_neg (List.cons_ne_nil _ _), ← hlast,
      if_congr (turns_cons r post fuel _) rfl rfl, happ]
    exact ih (pre ++ [r]) fuel (some (rdfPosition pre.length)) (happ ▸ hs)
      (fun x hx => hne x (List.mem_cons_of_mem _ hx))

/-- `Block_ContainsKey` of a key that no record has: the RDF of the last record, and
the end of the data. -/
theorem containsKey_absent {b : Block} {recs : List Record} {free : List UInt8} {flags : UInt8}
    {key : UInt64} (hs : b.Shape recs free flags) (hne : ∀ r ∈ recs, r.key ≠ key) :
    b.containsKey key = if recs.length < CIDFOffset / sizeofRDF then
        some (if recs = [] then none else some (CIDFOffset - sizeofRDF * recs.length),
          (dataArea recs).length)
      else none := by
  have hloop := containsKeyLoop_absent recs [] BLOCK_SIZE none hs hne
  rw [List.nil_append] at hloop
  rw [containsKey, hs.endOfRDFArea, ← if_congr (and_iff_right hs.length_lt) rfl rfl]
  exact hloop

/-! ## The records in the output -/

section Read

variable (sh : Shared)

/-- What a reader is given of a record with this memory from its first byte on. -/
def payload (pRecord mem : List UInt8) : List UInt8 :=
  if sh.isGziped mem then (sh.decompressGzip pRecord).getD pRecord else pRecord

/-- `Block_GetRecords` puts a prefix of ten bytes in front of it. -/
theorem recordItem_eq (key : UInt64) (pRecord mem : List UInt8) :
    recordItem sh key pRecord mem
      = toLE 8 key.toNat ++ toLE 2 (payload sh pRecord mem).length ++ payload sh pRecord mem := by
  rw [recordItem, payload]
  split
  · cases sh.decompressGzip pRecord with
    | none => rfl
    | some out => rfl
  · rfl

/-- What `Block_GetRecords` appends for records that start at an offset. -/
def items (b : Block) : ℕ → List Record → List UInt8
  | _, [] => []
  | pos, r :: recs =>
    recordItem sh r.key r.data (b.bytes.drop pos) ++ items b (pos + r.data.length) recs

theorem items_cons (b : Block) (pos : ℕ) (r : Record) (recs : List Record) :
    items sh b pos (r :: recs)
      = recordItem sh r.key r.data (b.bytes.drop pos) ++ items sh b (pos + r.data.length) recs :=
  rfl

theorem items_append (b : Block) (pre post : List Record) (pos : ℕ) :
    items sh b pos (pre ++ post)
      = items sh b pos pre ++ items sh b (pos + (dataArea pre).length) post := by
  induction pre generalizing pos with
  | nil => rfl
  | cons r pre ih =>
    rw [List.cons_append, items_cons, items_cons, ih, dataArea_cons, List.length_append, Nat.add_assoc,
      List.append_assoc]

theorem getRecordsLoop_spec {b : Block} {free : List UInt8} {flags : UInt8} (post : List Record) :
    ∀ (pre : List Record) (fuel : ℕ) (pData : List UInt8), b.Shape (pre ++ post) free flags →
      getRecordsLoop sh b (CIDFOffset - sizeofRDF * (pre ++ post).length) fuel
          (rdfPosition pre.length) (dataArea pre).length pData
        = if post.length < fuel ∧ (pre ++ post).length < CIDFOffset / sizeofRDF then
            some (pData ++ items sh b (dataArea pre).length post)
          else none := by
  induction post with
  | nil =>
    intro pre fuel pData hs
    rcases fuel with _ | fuel
    · rw [getRecordsLoop, if_neg (turns_zero _ _)]
    rw [List.append_nil] at hs ⊢
    rw [getRecordsLoop]
    by_cases hlen : pre.length < CIDFOffset / sizeofRDF
    · rw [if_pos (scan_stop hlen), if_pos ⟨Nat.succ_pos fuel, hlen⟩, items, List.append_nil]
    · obtain ⟨hnot, hload⟩ := hs.scan_wrap hlen
      rw [if_neg hnot, if_neg fun h => hlen h.2, hload]
      rfl
  | cons r post ih =>
    intro pre fuel pData hs
    rcases fuel with _ | fuel
    · rw [getRecordsLoop, if_neg (turns_zero _ _)]
    obtain ⟨hnot, hload⟩ := hs.scan_load
    have hdata := hs.scan_data
    have hbytes : load b.bytes (dataArea pre).length r.rdf.m_recordLength = some r.data :=
      hs.loadData
    have happ : pre ++ r :: post = (pre ++ [r]) ++ post := by
      rw [List.append_assoc, List.singleton_append]
    have hnext : rdfPosition (pre.length + 1) = rdfPosition (pre ++ [r]).length := by
      rw [List.length_append, List.length_singleton]
    have hpos : (dataArea (pre ++ [r])).length = (dataArea pre).length + r.data.length := by
      rw [dataArea_append, dataArea_cons, dataArea_nil, List.append_nil, List.length_append]
    have hstep := ih (pre ++ [r]) fuel
      (pData ++ recordItem sh r.key r.data (b.bytes.drop (dataArea pre).length)) (happ ▸ hs)
    rw [hpos, List.append_assoc pData, ← items_cons, ← hpos, ← happ] at hstep
    rw [getRecordsLoop, if_neg hnot, hload, Option.bind_eq_bind, Option.bind_some, hbytes,
      rdfPosition_next, hdata, hnext, if_congr (turns_cons r post fuel _) rfl rfl]
    exact hstep

/-- `Block_GetRecords` lists the records in order, if the scan stops. -/
theorem Holds.getRecords_eq {b : Block} {recs : List Record} (h : b.Holds recs)
    (pData : List UInt8) :
    b.getRecords sh pData = if recs.length < CIDFOffset / sizeofRDF then
        some (pData ++ items sh b 0 recs)
      else none := by
  obtain ⟨free, flags, hs⟩ := h.shape
  have hloop := getRecordsLoop_spec sh recs [] BLOCK_SIZE pData hs
  rw [List.nil_append] at hloop
  rw [getRecords, hs.endOfRDFArea, ← if_congr (and_iff_right hs.length_lt) rfl rfl]
  exact hloop

end Read

end Block

end TransDB
