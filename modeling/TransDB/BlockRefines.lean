/-
A block is an ordered list of records.

`Describes` reads a block field by field, as the drawing in `Block.c` has it: the
lengths add up, and the RDF at every place describes the record at that place.
Such a block is the concatenation of its areas, so what `BlockLayout` proves of the
bytes holds of it: each function of `Block.c` is one operation on the list, and
leaves a block that is read field by field again.
-/
import TransDB.BlockLayout
import TransDB.BlockManager
import Mathlib.Data.List.GetD
import Mathlib.Data.List.Induction

set_option autoImplicit false

namespace TransDB

open ByteList Record

namespace Block

/-! ## The fields of a block -/

/-- `b` has one RDF for each of the records, in order, packed below the CIDF, and
the CIDF adds up. -/
structure Describes (b : Block) (recs : List Record) : Prop where
  location : b.getCIDF.m_location = (dataArea recs).length
  room : b.getCIDF.m_location + b.getCIDF.m_amoutOfFreeSpace + sizeofRDF * recs.length = CIDFOffset
  rdf : ∀ pre r post, recs = pre ++ r :: post →
    b.loadRDF (CIDFOffset - sizeofRDF * (pre.length + 1)) = some r.rdf
  data : ∀ pre r post, recs = pre ++ r :: post →
    load b.bytes (dataArea pre).length r.data.length = some r.data
  nodup : (keys recs).Nodup

theorem rdf_position (n : ℕ) :
    CIDFOffset - sizeofRDF * (n + 1) = CIDFOffset - sizeofRDF - sizeofRDF * n := by
  rw [Nat.mul_add, Nat.mul_one, Nat.add_comm, Nat.sub_sub]

theorem Holds.describes {b : Block} {recs : List Record} (h : b.Holds recs) : b.Describes recs := by
  obtain ⟨free, flags, hs⟩ := h.shape
  have ht := hs.total
  have hc := hs.getCIDF
  refine ⟨by rw [hc], by rw [hc]; exact ht, ?_, ?_, h.nodup⟩
  · rintro pre r post rfl
    rw [rdf_position]
    exact hs.loadRDF
  · rintro pre r post rfl
    exact hs.loadData

/-- The ten bytes of an RDF. -/
theorem slice_of_loadRDF {b : Block} {pos : ℕ} {r : RDF} (h : b.loadRDF pos = some r) :
    slice b.bytes pos sizeofRDF = r.toBytes := by
  obtain ⟨bytes, hload, h⟩ := Option.bind_eq_some_iff.mp h
  cases h
  have hlen : bytes.length = sizeofRDF := by
    rw [load] at hload
    split at hload
    · next hle =>
      rw [← Option.some.inj hload]
      exact length_slice _ _ _ hle
    · cases hload
  have htake : (bytes.take 8).length = 8 := by
    rw [List.length_take, hlen]
    rfl
  have hdrop : (bytes.drop 8).length = 2 := by
    rw [List.length_drop, hlen]
    rfl
  have hkeyBytes : toLE 8 (UInt64.ofNat (ofLE (bytes.take 8))).toNat = bytes.take 8 :=
    toLE_ofLE_key htake
  have hlenBytes : toLE 2 (ofLE (bytes.drop 8)) = bytes.drop 8 := by
    have hsame := toLE_ofLE (bytes.drop 8)
    rwa [hdrop] at hsame
  rw [slice_of_load hload, RDF.toBytes]
  dsimp only
  rw [hkeyBytes, hlenBytes, List.take_append_drop]

namespace Describes

variable {b : Block} {recs : List Record}

/-- The records stand at the start of the block, one after another. -/
theorem slice_data (h : b.Describes recs) (pre post : List Record) (hsplit : recs = pre ++ post) :
    slice b.bytes 0 (dataArea pre).length = dataArea pre := by
  induction pre using List.reverseRecOn generalizing post with
  | nil => rfl
  | append_singleton pre r ih =>
    have happ : recs = pre ++ r :: post := by
      rw [hsplit, List.append_assoc, List.singleton_append]
    have hr := slice_of_load (h.data pre r post happ)
    rw [dataArea_append, dataArea_cons, dataArea_nil, List.append_nil, List.length_append,
      slice_add, ih (r :: post) happ, Nat.zero_add, hr]

/-- Their RDFs stand below the CIDF, the last one first. -/
theorem slice_rdf (h : b.Describes recs) (pre post : List Record) (hsplit : recs = pre ++ post) :
    slice b.bytes (CIDFOffset - sizeofRDF * pre.length) (sizeofRDF * pre.length) = rdfArea pre := by
  have hle : sizeofRDF * recs.length ≤ CIDFOffset := by
    have hroom := h.room
    omega
  induction pre using List.reverseRecOn generalizing post with
  | nil => rfl
  | append_singleton pre r ih =>
    have happ : recs = pre ++ r :: post := by
      rw [hsplit, List.append_assoc, List.singleton_append]
    have hr := slice_of_loadRDF (h.rdf pre r post happ)
    have hnext : CIDFOffset - sizeofRDF * (pre.length + 1) + sizeofRDF
        = CIDFOffset - sizeofRDF * pre.length := by
      rw [happ, List.length_append, List.length_cons] at hle
      simp only [sizeofRDF] at hle ⊢
      omega
    have hsize : sizeofRDF * (pre.length + 1) = sizeofRDF + sizeofRDF * pre.length := by ring
    rw [List.length_append, List.length_singleton, hsize, slice_add, ← hsize, hr, hnext,
      ih (r :: post) happ, rdfArea_append, rdfArea_cons, rdfArea_nil, List.nil_append]

/-- The last five bytes are the CIDF. -/
theorem slice_CIDF (b : Block) : slice b.bytes CIDFOffset sizeofCIDF = b.getCIDF.toBytes := by
  have hlen : ∀ pos n, pos + n ≤ BLOCK_SIZE → (slice b.bytes pos n).length = n := by
    intro pos n hle
    exact length_slice _ _ _ (by rw [b.size_eq]; exact hle)
  have hsame : ∀ pos, pos + 2 ≤ BLOCK_SIZE →
      toLE 2 (ofLE (slice b.bytes pos 2)) = slice b.bytes pos 2 := by
    intro pos hle
    have h := toLE_ofLE (slice b.bytes pos 2)
    rwa [hlen pos 2 hle] at h
  have hflag : slice b.bytes (CIDFOffset + 4) 1 = [b.bytes.getD (CIDFOffset + 4) 0] := by
    have hlt : CIDFOffset + 4 < b.bytes.length := by
      rw [b.size_eq]
      decide
    rw [slice, List.getD_eq_getElem _ _ hlt, List.drop_eq_getElem_cons hlt]
    rfl
  have hsplit : sizeofCIDF = 2 + (2 + 1) := rfl
  have hfree := hsame CIDFOffset (by decide)
  have hloc := hsame (CIDFOffset + 2) (by decide)
  rw [hsplit, slice_add, slice_add, CIDF.toBytes, getCIDF]
  dsimp only
  rw [hfree, hloc, Nat.add_assoc, hflag, List.append_assoc]

/-- A block that is read like this is the concatenation of its areas. -/
theorem holds (h : b.Describes recs) : b.Holds recs := by
  have hroom := h.room
  have hloc := h.location
  obtain ⟨free, hfree⟩ : ∃ free, free
      = slice b.bytes (dataArea recs).length b.getCIDF.m_amoutOfFreeSpace := ⟨_, rfl⟩
  refine ⟨⟨free, b.getCIDF.m_flags, ?_⟩, h.nodup⟩
  have hsize : BLOCK_SIZE = (dataArea recs).length + (b.getCIDF.m_amoutOfFreeSpace
      + (sizeofRDF * recs.length + sizeofCIDF)) := by
    simp only [CIDFOffset, BLOCK_SIZE, sizeofCIDF] at hroom ⊢
    omega
  have hrdfPos : (dataArea recs).length + b.getCIDF.m_amoutOfFreeSpace
      = CIDFOffset - sizeofRDF * recs.length := by
    omega
  have hcidfPos : CIDFOffset - sizeofRDF * recs.length + sizeofRDF * recs.length = CIDFOffset := by
    omega
  have hwhole : b.bytes = slice b.bytes 0 BLOCK_SIZE := by
    rw [slice, List.drop_zero, ← b.size_eq, List.take_length]
  have hlenfree : free.length = b.getCIDF.m_amoutOfFreeSpace := by
    rw [hfree]
    refine length_slice _ _ _ ?_
    rw [b.size_eq, hsize]
    omega
  have hdata := h.slice_data recs [] (List.append_nil recs).symm
  have hrdf := h.slice_rdf recs [] (List.append_nil recs).symm
  have hcidf : b.getCIDF = ⟨free.length, (dataArea recs).length, b.getCIDF.m_flags⟩ := by
    rw [hlenfree, ← hloc]
  rw [Shape, layout, ← hcidf, ← slice_CIDF, ← hrdf]
  conv_lhs => rw [hwhole, hsize]
  rw [slice_add, slice_add, slice_add, hdata, Nat.zero_add, ← hfree, hrdfPos, hcidfPos]
  simp only [List.append_assoc]

end Describes

/-- The two ways to say what a block holds. -/
theorem describes_iff {b : Block} {recs : List Record} : b.Describes recs ↔ b.Holds recs :=
  ⟨Describes.holds, Holds.describes⟩

/-! ## The operations on the list -/

/-- `b` is described by the records, and marked dirty. -/
structure Written (b : Block) (recs : List Record) : Prop where
  describes : b.Describes recs
  dirty : b.isDirty = true

/-- What the functions of `Block.c` do to a block that holds the records `recs`. -/
structure RefinesList (b : Block) (recs : List Record) : Prop where
  /-- A new key goes to the end if there is room for the record and its RDF. -/
  write_fits : ∀ key data, key ∉ keys recs →
    data.length + sizeofRDF ≤ b.getCIDF.m_amoutOfFreeSpace →
    ∃ b', b.writeRecord key data = some (.ok, b') ∧ b'.Written (recs ++ [⟨key, data⟩])
  /-- Otherwise nothing changes. -/
  write_full : ∀ key data, key ∉ keys recs →
    b.getCIDF.m_amoutOfFreeSpace < data.length + sizeofRDF →
    b.writeRecord key data = some (.noSpaceForNewData, b)
  /-- The pair of the key is taken out, the others stay in order. -/
  delete : ∀ pre r post, recs = pre ++ r :: post →
    ∃ b', b.deleteRecordByKey r.key = some (.ok, b') ∧ b'.Written (pre ++ post)
  /-- Bytes of the same length replace the old ones in their place. -/
  update_same : ∀ pre r post data, recs = pre ++ r :: post → data.length = r.data.length →
    ∃ b', b.updateRecord r.key data = some (.ok, b')
      ∧ b'.Written (pre ++ ⟨r.key, data⟩ :: post)
  /-- Bytes of another length go to the end, if there is room for them. -/
  update_moved : ∀ pre r post data, recs = pre ++ r :: post → data.length ≠ r.data.length →
    data.length ≤ b.getCIDF.m_amoutOfFreeSpace + r.data.length →
    ∃ b', b.updateRecord r.key data = some (.ok, b')
      ∧ b'.Written (pre ++ post ++ [⟨r.key, data⟩])
  /-- Otherwise the pair is gone. -/
  update_full : ∀ pre r post data, recs = pre ++ r :: post → data.length ≠ r.data.length →
    b.getCIDF.m_amoutOfFreeSpace + r.data.length < data.length →
    ∃ b', b.updateRecord r.key data = some (.noSpaceForNewData, b') ∧ b'.Written (pre ++ post)

theorem Holds.written {b : Block} {recs : List Record} (h : b.Holds recs) (hd : b.isDirty = true) :
    b.Written recs := ⟨h.describes, hd⟩

/-- The last bytes of any block are a CIDF. -/
theorem bytes_split (b : Block) : b.bytes = b.bytes.take CIDFOffset ++ b.getCIDF.toBytes := by
  have hdrop : (b.bytes.drop CIDFOffset).length = sizeofCIDF := by
    rw [List.length_drop, b.size_eq]
    rfl
  have hall : slice b.bytes CIDFOffset sizeofCIDF = b.bytes.drop CIDFOffset := by
    rw [slice, ← hdrop, List.take_length]
  rw [← Describes.slice_CIDF, hall, List.take_append_drop]

theorem initBlock_written (b : Block) : b.initBlock.Written [] := by
  have hs := initBlock_shape b _ _ b.bytes_split
  exact Holds.written ⟨⟨_, _, hs⟩, List.nodup_nil⟩ hs.isDirty

theorem Describes.refinesList {b : Block} {recs : List Record} (h : b.Describes recs) :
    b.RefinesList recs := by
  have hb := h.holds
  refine ⟨?_, ?_, ?_, ?_, ?_, ?_⟩
  · intro key data hkey hfit
    obtain ⟨b', hw, hb', hd⟩ := hb.writeRecord_fits hkey hfit
    exact ⟨b', hw, hb'.written hd⟩
  · intro key data _ hfull
    exact hb.writeRecord_full key hfull
  · rintro pre r post rfl
    obtain ⟨b', hdel, hb', hd⟩ := hb.deleteRecordByKey
    exact ⟨b', hdel, hb'.written hd⟩
  · rintro pre r post data rfl hlen
    obtain ⟨b', hup, hb', hd⟩ := hb.updateRecord_same hlen
    exact ⟨b', hup, hb'.written hd⟩
  · rintro pre r post data rfl hlen hroom
    obtain ⟨b', hd, ⟨hup, hb', -⟩ | ⟨-, -, hfull⟩⟩ := hb.updateRecord_other hlen
    · exact ⟨b', hup, hb'.written hd⟩
    · omega
  · rintro pre r post data rfl hlen hroom
    obtain ⟨b', hd, ⟨-, -, hfit⟩ | ⟨hup, hb', -⟩⟩ := hb.updateRecord_other hlen
    · omega
    · exact ⟨b', hup, hb'.written hd⟩

/-- **A block refines an ordered list of records.** `Block_InitBlock` makes the empty
list of any block, and on a block that holds a list every function is its operation on
the list. -/
theorem block_refines_list : (∀ b : Block, b.initBlock.Written [])
    ∧ ∀ (b : Block) (recs : List Record), b.Describes recs → b.RefinesList recs :=
  ⟨initBlock_written, fun _ _ h => h.refinesList⟩

/-- A new block with two records. -/
theorem block_refines_list_two : ∃ b b',
    Blman.zeroBlock.initBlock.writeRecord 7 [1, 2, 3] = some (.ok, b)
      ∧ b.writeRecord 8 [4, 5] = some (.ok, b')
      ∧ b'.RefinesList [⟨7, [1, 2, 3]⟩, ⟨8, [4, 5]⟩] := by
  have hfree : [1, 2, 3].length + sizeofRDF
      ≤ Blman.zeroBlock.initBlock.getCIDF.m_amoutOfFreeSpace := by
    decide +kernel
  have hnew := block_refines_list.2 _ [] (block_refines_list.1 Blman.zeroBlock).describes
  obtain ⟨b, hw, hb⟩ := hnew.write_fits 7 [1, 2, 3] List.not_mem_nil hfree
  have hfree' : [4, 5].length + sizeofRDF ≤ b.getCIDF.m_amoutOfFreeSpace := by
    have hroom := hb.describes.room
    rw [hb.describes.location] at hroom
    change 3 + b.getCIDF.m_amoutOfFreeSpace + 10 * 1 = 4091 at hroom
    change 2 + 10 ≤ _
    omega
  obtain ⟨b', hw', hb'⟩ := (block_refines_list.2 b _ hb.describes).write_fits 8 [4, 5]
    (by decide) hfree'
  exact ⟨b, b', hw, hw', block_refines_list.2 b' _ hb'.describes⟩

end Block

end TransDB
