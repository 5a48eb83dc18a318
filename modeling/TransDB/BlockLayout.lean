/-
What the bytes of a block mean: a list of records.

A block built by the server is the concatenation of four areas: the record
bytes in order, free bytes, the RDFs in reverse order, the CIDF. `Shape` says
so, and the theorems below give the effect of each function of `Block.c` on the
list: lookup finds the record, a write appends, a delete removes, an update
replaces in place or moves to the end. Each of them also sets the dirty flag.

The proofs all go the same way: write the bytes as the concatenation the next
memory access splits, and let `ByteList` do the access.
-/
import TransDB.Block
import Mathlib.Data.List.Nodup

set_option autoImplicit false

namespace TransDB

open ByteList

/-- A record as stored: its key and its (possibly compressed) bytes. -/
structure Record where
  key : UInt64
  data : List UInt8
  deriving DecidableEq, Repr

namespace Record

/-- The RDF of a record. -/
def rdf (r : Record) : RDF := { m_key := r.key, m_recordLength := r.data.length }

/-- The keys of a list of records. -/
def keys (recs : List Record) : List UInt64 := recs.map Record.key

/-- The record bytes, in order. -/
def dataArea (recs : List Record) : List UInt8 := recs.flatMap Record.data

/-- The RDFs, last record first. -/
def rdfArea (recs : List Record) : List UInt8 := recs.reverse.flatMap fun r => r.rdf.toBytes

/-- The four areas of a block. -/
def layout (recs : List Record) (free : List UInt8) (flags : UInt8) : List UInt8 :=
  dataArea recs ++ free ++ rdfArea recs
    ++ CIDF.toBytes ⟨free.length, (dataArea recs).length, flags⟩

@[simp] theorem dataArea_nil : dataArea [] = [] := rfl

@[simp] theorem dataArea_cons (r : Record) (recs : List Record) :
    dataArea (r :: recs) = r.data ++ dataArea recs := List.flatMap_cons

@[simp] theorem dataArea_append (p q : List Record) :
    dataArea (p ++ q) = dataArea p ++ dataArea q := List.flatMap_append

@[simp] theorem rdfArea_nil : rdfArea [] = [] := rfl

@[simp] theorem rdfArea_append (p q : List Record) :
    rdfArea (p ++ q) = rdfArea q ++ rdfArea p := by
  simp only [rdfArea, List.reverse_append, List.flatMap_append]

@[simp] theorem rdfArea_cons (r : Record) (recs : List Record) :
    rdfArea (r :: recs) = rdfArea recs ++ r.rdf.toBytes := by
  rw [← List.singleton_append, rdfArea_append]
  simp only [rdfArea, List.reverse_singleton, List.flatMap_cons, List.flatMap_nil, List.append_nil]

@[simp] theorem length_rdfArea (recs : List Record) :
    (rdfArea recs).length = sizeofRDF * recs.length := by
  induction recs with
  | nil => rfl
  | cons r recs ih =>
    rw [rdfArea_cons, List.length_append, ih, RDF.length_toBytes, List.length_cons]
    ring

end Record

open Record

namespace Block

/-- The bytes of `b` are the records `recs`, these free bytes and these flags. -/
def Shape (b : Block) (recs : List Record) (free : List UInt8) (flags : UInt8) : Prop :=
  b.bytes = layout recs free flags

/-- `b` holds exactly the records `recs`, with distinct keys. -/
structure Holds (b : Block) (recs : List Record) : Prop where
  shape : ∃ free flags, b.Shape recs free flags
  nodup : (keys recs).Nodup

theorem or_dirty (flags : UInt8) : ((flags ||| eBLF_Dirty) &&& eBLF_Dirty != 0) = true := by
  have h : (flags ||| eBLF_Dirty) &&& eBLF_Dirty = eBLF_Dirty := by
    apply UInt8.toBitVec_inj.mp
    simp only [eBLF_Dirty, UInt8.toBitVec_and, UInt8.toBitVec_or]
    ext i hi
    have hbool : ∀ x y : Bool, ((x || y) && y) = y := by decide
    rw [BitVec.getElem_and, BitVec.getElem_or, hbool]
  rw [h]
  rfl

/-! ## The accesses, over a concatenation -/

theorem memcpy_of_append {b : Block} {a x c : List UInt8} (h : b.bytes = a ++ x ++ c)
    (pos : ℕ) {y : List UInt8} (hp : pos = a.length) (hy : y.length = x.length) :
    ∃ b', b.memcpy pos y = some b' ∧ b'.bytes = a ++ y ++ c := by
  have hc : ByteList.memcpy b.bytes pos y = some (a ++ y ++ c) := by
    rw [h]
    exact memcpy_append a x c y pos hp hy
  rw [memcpy]
  split
  · next l hl =>
    refine ⟨_, rfl, ?_⟩
    exact Option.some.inj (hl.symm.trans hc)
  · next hl =>
    rw [hl] at hc
    cases hc

theorem memmove_of_eq {b : Block} {l : List UInt8} {dst src n : ℕ}
    (h : ByteList.memmove b.bytes dst src n = some l) :
    ∃ b', b.memmove dst src n = some b' ∧ b'.bytes = l := by
  rw [memmove]
  split
  · next l' hl =>
    refine ⟨_, rfl, ?_⟩
    exact Option.some.inj (hl.symm.trans h)
  · next hl =>
    rw [hl] at h
    cases h

/-- Moving `y` down over `x` leaves `y` and as many stale bytes as `x` had. -/
theorem memmoveInt_down {b : Block} {a x y c : List UInt8} (h : b.bytes = a ++ x ++ y ++ c)
    (dst src : ℕ) (n : Int) (hd : dst = a.length) (hs : src = a.length + x.length)
    (hn : n = y.length) :
    ∃ b' junk, b.memmoveInt dst src n = some b' ∧ junk.length = x.length
      ∧ b'.bytes = a ++ y ++ junk ++ c := by
  rw [memmoveInt]
  by_cases h0 : n = 0
  · have hy : y = [] := List.eq_nil_of_length_eq_zero (by omega)
    subst hy
    rw [if_pos h0]
    exact ⟨b, x, rfl, rfl, by rw [h, List.append_nil, List.append_nil]⟩
  · rw [if_neg h0, if_neg (by omega)]
    have hm : ByteList.memmove b.bytes dst src n.toNat
        = some (a ++ y ++ (x ++ y).drop y.length ++ c) := by
      rw [h]
      exact memmove_down a x y c dst src n.toNat hd hs (by omega)
    obtain ⟨b', hb', hbytes⟩ := memmove_of_eq hm
    refine ⟨b', _, hb', ?_, hbytes⟩
    rw [List.length_drop, List.length_append]
    omega

/-- Moving `x` up over `y` leaves `x` and as many stale bytes as `y` had. -/
theorem memmoveInt_up {b : Block} {a x y c : List UInt8} (h : b.bytes = a ++ x ++ y ++ c)
    (dst src : ℕ) (n : Int) (hs : src = a.length) (hd : dst = a.length + y.length)
    (hn : n = x.length) :
    ∃ b' junk, b.memmoveInt dst src n = some b' ∧ junk.length = y.length
      ∧ b'.bytes = a ++ junk ++ x ++ c := by
  rw [memmoveInt]
  by_cases h0 : n = 0
  · have hx : x = [] := List.eq_nil_of_length_eq_zero (by omega)
    subst hx
    rw [if_pos h0]
    exact ⟨b, y, rfl, rfl, by rw [h, List.append_nil, List.append_nil]⟩
  · rw [if_neg h0, if_neg (by omega)]
    have hm : ByteList.memmove b.bytes dst src n.toNat
        = some (a ++ (x ++ y).take y.length ++ x ++ c) := by
      rw [h]
      exact memmove_up a x y c dst src n.toNat hs hd (by omega)
    obtain ⟨b', hb', hbytes⟩ := memmove_of_eq hm
    refine ⟨b', _, hb', ?_, hbytes⟩
    rw [List.length_take, List.length_append]
    omega

theorem getCIDF_of_append {b : Block} {body : List UInt8} {c : CIDF}
    (h : b.bytes = body ++ c.toBytes) (hf : c.m_amoutOfFreeSpace < 65536)
    (hl : c.m_location < 65536) : b.getCIDF = c := by
  have hbody : CIDFOffset = body.length := by
    have hlen := b.size_eq
    rw [h, List.length_append, CIDF.length_toBytes] at hlen
    simp only [CIDFOffset]
    omega
  have hfree : slice b.bytes CIDFOffset 2 = toLE 2 c.m_amoutOfFreeSpace := by
    rw [h, CIDF.toBytes, List.append_assoc (toLE 2 _), ← List.append_assoc]
    exact slice_append _ _ _ _ _ hbody (length_toLE _ _).symm
  have hloc : slice b.bytes (CIDFOffset + 2) 2 = toLE 2 c.m_location := by
    rw [h, CIDF.toBytes, ← List.append_assoc, ← List.append_assoc]
    refine slice_append _ _ _ _ _ ?_ (length_toLE _ _).symm
    rw [List.length_append, length_toLE, hbody]
  have hflags : b.bytes.getD (CIDFOffset + 4) 0 = c.m_flags := by
    have hpos : CIDFOffset + 4
        = (body ++ (toLE 2 c.m_amoutOfFreeSpace ++ toLE 2 c.m_location)).length := by
      simp only [List.length_append, length_toLE, hbody]
    rw [h, CIDF.toBytes, ← List.append_assoc, List.getD_eq_getElem?_getD, hpos,
      List.getElem?_append_right (Nat.le_refl _)]
    simp only [Nat.sub_self, List.getElem?_cons_zero, Option.getD_some]
  have hf' : ofLE (toLE 2 c.m_amoutOfFreeSpace) = c.m_amoutOfFreeSpace :=
    ofLE_toLE_of_lt (by omega)
  have hl' : ofLE (toLE 2 c.m_location) = c.m_location := ofLE_toLE_of_lt (by omega)
  rw [getCIDF, hfree, hloc, hflags, hf', hl']

theorem putCIDF_of_append {b : Block} {body : List UInt8} {c : CIDF}
    (h : b.bytes = body ++ c.toBytes) (c' : CIDF) : (b.putCIDF c').bytes = body ++ c'.toBytes := by
  have hbody : CIDFOffset = body.length := by
    have hlen := b.size_eq
    rw [h, List.length_append, CIDF.length_toBytes] at hlen
    simp only [CIDFOffset]
    omega
  have hp := patch_append body c.toBytes [] c'.toBytes CIDFOffset hbody
    (by rw [CIDF.length_toBytes, CIDF.length_toBytes])
  rw [List.append_nil, List.append_nil] at hp
  show patch b.bytes CIDFOffset c'.toBytes = body ++ c'.toBytes
  rw [h, hp]

theorem loadRDF_of_append {b : Block} {a c : List UInt8} {r : RDF}
    (h : b.bytes = a ++ r.toBytes ++ c) (hr : r.m_recordLength < 65536) {pos : ℕ}
    (hp : pos = a.length) : b.loadRDF pos = some r := by
  have hload : load b.bytes pos sizeofRDF = some r.toBytes := by
    rw [h]
    exact load_append a r.toBytes c pos sizeofRDF hp r.length_toBytes.symm
  have htake : r.toBytes.take 8 = toLE 8 r.m_key.toNat := by
    rw [RDF.toBytes]
    exact List.take_left' (length_toLE _ _)
  have hdrop : r.toBytes.drop 8 = toLE 2 r.m_recordLength := by
    rw [RDF.toBytes]
    exact List.drop_left' (length_toLE _ _)
  have hkey : UInt64.ofNat (ofLE (toLE 8 r.m_key.toNat)) = r.m_key := by
    rw [ofLE_toLE_of_lt r.m_key.toNat_lt, UInt64.ofNat_toNat]
  have hlen : ofLE (toLE 2 r.m_recordLength) = r.m_recordLength := ofLE_toLE_of_lt (by omega)
  rw [loadRDF, hload, Option.bind_eq_bind, Option.bind_some, htake, hdrop, hkey, hlen]
  rfl

namespace Shape

variable {b : Block} {recs pre post : List Record} {r : Record} {free : List UInt8}
  {flags : UInt8}

/-- The four areas fill the block. -/
theorem total (h : b.Shape recs free flags) :
    (dataArea recs).length + free.length + sizeofRDF * recs.length = CIDFOffset := by
  have hlen := b.size_eq
  rw [h, layout] at hlen
  simp only [List.length_append, length_rdfArea, CIDF.length_toBytes] at hlen
  simp only [CIDFOffset]
  omega

theorem getCIDF (h : b.Shape recs free flags) :
    b.getCIDF = ⟨free.length, (dataArea recs).length, flags⟩ := by
  have ht := h.total
  simp only [CIDFOffset, BLOCK_SIZE, sizeofCIDF] at ht
  exact getCIDF_of_append h (by show free.length < 65536; omega)
    (by show (dataArea recs).length < 65536; omega)

/-- Where the RDF area ends, as `m_location + m_amoutOfFreeSpace`. -/
theorem endOfRDFArea (h : b.Shape recs free flags) :
    u16 (b.getCIDF.m_location + b.getCIDF.m_amoutOfFreeSpace)
      = CIDFOffset - sizeofRDF * recs.length := by
  have ht := h.total
  simp only [h.getCIDF]
  simp only [CIDFOffset, BLOCK_SIZE, sizeofCIDF, u16] at ht ⊢
  omega

/-- The RDF of the record after `pre`. -/
theorem loadRDF (h : b.Shape (pre ++ r :: post) free flags) :
    b.loadRDF (CIDFOffset - sizeofRDF - sizeofRDF * pre.length) = some r.rdf := by
  have ht := h.total
  have hbytes : b.bytes = (dataArea (pre ++ r :: post) ++ free ++ rdfArea post)
      ++ r.rdf.toBytes
      ++ (rdfArea pre ++ CIDF.toBytes ⟨free.length, (dataArea (pre ++ r :: post)).length, flags⟩) := by
    rw [h, layout]
    simp only [rdfArea_append, rdfArea_cons, List.append_assoc]
  simp only [dataArea_append, dataArea_cons, List.length_append, List.length_cons, CIDFOffset,
    BLOCK_SIZE, sizeofCIDF, sizeofRDF] at ht
  refine loadRDF_of_append hbytes (by show r.data.length < 65536; omega) ?_
  simp only [dataArea_append, dataArea_cons, List.length_append, length_rdfArea, CIDFOffset,
    BLOCK_SIZE, sizeofCIDF, sizeofRDF]
  omega

/-- The bytes of the record after `pre`. -/
theorem loadData (h : b.Shape (pre ++ r :: post) free flags) :
    load b.bytes (dataArea pre).length r.data.length = some r.data := by
  have hbytes : b.bytes = dataArea pre ++ r.data ++ (dataArea post ++ free
      ++ rdfArea (pre ++ r :: post)
      ++ CIDF.toBytes ⟨free.length, (dataArea (pre ++ r :: post)).length, flags⟩) := by
    rw [h, layout]
    simp only [dataArea_append, dataArea_cons, List.append_assoc]
  rw [hbytes]
  exact load_append _ _ _ _ _ rfl rfl

theorem isDirty (h : b.Shape recs free flags) : b.isDirty = (flags &&& eBLF_Dirty != 0) := by
  rw [Block.isDirty, h.getCIDF]

end Shape

/-! ## Lookup -/

/-- The search loop finds the first record with the key. The induction is over
the records it skips (`mid`); `pre` are the ones it has already passed. -/
theorem containsKeyLoop_found {b : Block} {free : List UInt8} {flags : UInt8} (r : Record)
    (post mid : List Record) (hne : ∀ x ∈ mid, x.key ≠ r.key) (endPos : ℕ) :
    ∀ (pre : List Record) (fuel : ℕ) (p : Option ℕ),
      b.Shape (pre ++ mid ++ r :: post) free flags →
      endPos = CIDFOffset - sizeofRDF * (pre ++ mid ++ r :: post).length →
      mid.length < fuel →
      b.containsKeyLoop r.key endPos fuel (CIDFOffset - sizeofRDF - sizeofRDF * pre.length) p
          (dataArea pre).length
        = some (some (CIDFOffset - sizeofRDF - sizeofRDF * (pre ++ mid).length),
            (dataArea (pre ++ mid)).length) := by
  induction mid with
  | nil =>
    intro pre fuel p hs hend hfuel
    obtain ⟨fuel, rfl⟩ : ∃ k, fuel = k + 1 := ⟨fuel - 1, by omega⟩
    have ht := hs.total
    rw [List.append_nil] at hs hend ht ⊢
    have hnot : ¬ CIDFOffset - sizeofRDF - sizeofRDF * pre.length < endPos := by
      simp only [List.length_append, List.length_cons, sizeofRDF, CIDFOffset, BLOCK_SIZE,
        sizeofCIDF] at ht hend ⊢
      omega
    rw [containsKeyLoop, if_neg hnot, hs.loadRDF]
    simp only [Option.bind_eq_bind, Option.bind_some, Record.rdf, if_true]
  | cons m mid ih =>
    intro pre fuel p hs hend hfuel
    obtain ⟨fuel, rfl⟩ : ∃ k, fuel = k + 1 := ⟨fuel - 1, by omega⟩
    have ht := hs.total
    have hassoc : pre ++ m :: mid ++ r :: post = (pre ++ [m]) ++ mid ++ r :: post := by
      simp only [List.append_assoc, List.cons_append, List.nil_append]
    have hload : b.loadRDF (CIDFOffset - sizeofRDF - sizeofRDF * pre.length) = some m.rdf := by
      rw [List.append_assoc, List.cons_append] at hs
      exact hs.loadRDF
    simp only [dataArea_append, dataArea_cons, List.length_append, List.length_cons, sizeofRDF,
      CIDFOffset, BLOCK_SIZE, sizeofCIDF] at ht hend
    have hnot : ¬ CIDFOffset - sizeofRDF - sizeofRDF * pre.length < endPos := by
      simp only [sizeofRDF, CIDFOffset, BLOCK_SIZE, sizeofCIDF]
      omega
    have hkey : ¬ m.rdf.m_key = r.key := hne m List.mem_cons_self
    have hpos : u16 ((CIDFOffset - sizeofRDF - sizeofRDF * pre.length : ℕ) - (sizeofRDF : ℕ))
        = CIDFOffset - sizeofRDF - sizeofRDF * (pre ++ [m]).length := by
      simp only [u16, List.length_append, List.length_cons, List.length_nil, sizeofRDF, CIDFOffset,
        BLOCK_SIZE, sizeofCIDF]
      omega
    have hdata : u16 ((dataArea pre).length + m.rdf.m_recordLength)
        = (dataArea (pre ++ [m])).length := by
      simp only [u16, Record.rdf, dataArea_append, dataArea_cons, dataArea_nil, List.length_append,
        List.append_nil]
      omega
    rw [containsKeyLoop, if_neg hnot, hload, Option.bind_eq_bind, Option.bind_some, if_neg hkey,
      hpos, hdata,
      ih (fun x hx => hne x (List.mem_cons_of_mem m hx)) (pre ++ [m]) fuel _ (hassoc ▸ hs)
        (by simp only [List.length_append, List.length_cons, List.length_nil, sizeofRDF, CIDFOffset,
              BLOCK_SIZE, sizeofCIDF]; omega)
        (by rw [List.length_cons] at hfuel; omega)]
    simp only [List.append_assoc, List.cons_append, List.nil_append]

/-- `Block_ContainsKey` of a stored key: its RDF and the offset of its record. -/
theorem containsKey_mem {b : Block} {pre post : List Record} {r : Record} {free : List UInt8}
    {flags : UInt8} (hs : b.Shape (pre ++ r :: post) free flags)
    (hne : ∀ x ∈ pre, x.key ≠ r.key) :
    b.containsKey r.key
      = some (some (CIDFOffset - sizeofRDF - sizeofRDF * pre.length), (dataArea pre).length) := by
  have ht := hs.total
  have hfuel : pre.length < BLOCK_SIZE := by
    simp only [List.length_append, List.length_cons, sizeofRDF, CIDFOffset, BLOCK_SIZE,
      sizeofCIDF] at ht ⊢
    omega
  have hl := containsKeyLoop_found r post pre hne
    (CIDFOffset - sizeofRDF * (pre ++ r :: post).length) [] BLOCK_SIZE none
    (by simpa only [List.nil_append] using hs) rfl hfuel
  simp only [List.nil_append, dataArea_nil, List.length_nil, Nat.mul_zero, Nat.sub_zero] at hl
  rw [containsKey]
  simp only [hs.endOfRDFArea]
  exact hl

/-! ## Writing, deleting and updating

The three theorems below say what the byte-level functions do to a block of a
known shape; the ones for `Holds` follow from them. -/

theorem initBlock_shape (b : Block) (body : List UInt8) (c : CIDF)
    (h : b.bytes = body ++ c.toBytes) : b.initBlock.Shape [] body eBLF_Dirty := by
  have hbody : body.length = CIDFOffset := by
    have hlen := b.size_eq
    rw [h, List.length_append, CIDF.length_toBytes] at hlen
    simp only [CIDFOffset]
    omega
  rw [Shape, initBlock, putCIDF_of_append h, layout, hbody]
  simp only [dataArea_nil, rdfArea_nil, List.nil_append, List.append_nil, List.length_nil]

/-- A record that does not fit leaves the block as it is. -/
theorem writeRecord_full {b : Block} {recs : List Record} {free data : List UInt8} {flags : UInt8}
    (key : UInt64) (hs : b.Shape recs free flags) (hfull : free.length < data.length + sizeofRDF) :
    b.writeRecord key data = some (.noSpaceForNewData, b) := by
  rw [writeRecord]
  simp only [hs.getCIDF, if_pos hfull]
  rfl

/-- A record that fits goes to the end of the data area, its RDF to the end of
the RDF area. -/
theorem writeRecord_fits {b : Block} {recs : List Record} {free data : List UInt8} {flags : UInt8}
    (key : UInt64) (hs : b.Shape recs free flags) (hfit : data.length + sizeofRDF ≤ free.length) :
    ∃ b' free', b.writeRecord key data = some (.ok, b')
      ∧ b'.Shape (recs ++ [⟨key, data⟩]) free' (flags ||| eBLF_Dirty) := by
  have ht := hs.total
  -- the free bytes the record will take, the ones that stay free, the RDF's
  obtain ⟨f1, f2, f3, rfl, hl1, hl3⟩ : ∃ f1 f2 f3, free = f1 ++ f2 ++ f3
      ∧ f1.length = data.length ∧ f3.length = sizeofRDF := by
    refine ⟨free.take data.length,
      (free.drop data.length).take (free.length - data.length - sizeofRDF),
      (free.drop data.length).drop (free.length - data.length - sizeofRDF), ?_, ?_, ?_⟩
    · rw [List.append_assoc, List.take_append_drop, List.take_append_drop]
    · rw [List.length_take]
      omega
    · rw [List.length_drop, List.length_drop]
      omega
  simp only [List.length_append, CIDFOffset, BLOCK_SIZE, sizeofCIDF, sizeofRDF] at ht hfit hl3
  obtain ⟨c, hc⟩ : ∃ c : CIDF, c = ⟨(f1 ++ f2 ++ f3).length, (dataArea recs).length, flags⟩ :=
    ⟨_, rfl⟩
  obtain ⟨rdfBytes, hr⟩ : ∃ l, l = RDF.toBytes ⟨key, data.length⟩ := ⟨_, rfl⟩
  have hcf : c.m_amoutOfFreeSpace < 65536 := by
    simp only [hc, List.length_append]
    omega
  have hcl : c.m_location < 65536 := by
    simp only [hc]
    omega
  -- the RDF
  have hb0 : b.bytes = (dataArea recs ++ f1 ++ f2) ++ f3 ++ (rdfArea recs ++ c.toBytes) := by
    rw [hs, layout, ← hc]
    simp only [List.append_assoc]
  have hpos : u16 ((c.m_location : ℕ) + (c.m_amoutOfFreeSpace : ℕ) - (sizeofRDF : ℕ))
      = (dataArea recs ++ f1 ++ f2).length := by
    simp only [List.length_append, hc, u16, sizeofRDF]
    omega
  obtain ⟨b1, hb1, hbytes1⟩ := memcpy_of_append hb0 _ hpos
    (by rw [hl3, hr, RDF.length_toBytes, sizeofRDF] : rdfBytes.length = f3.length)
  -- the record
  have hcidf1 : b1.getCIDF = c := by
    have hb1' : b1.bytes = (dataArea recs ++ f1 ++ f2 ++ rdfBytes ++ rdfArea recs) ++ c.toBytes := by
      rw [hbytes1]
      simp only [List.append_assoc]
    exact getCIDF_of_append hb1' hcf hcl
  have hbytes1' : b1.bytes = dataArea recs ++ f1 ++ (f2 ++ rdfBytes ++ rdfArea recs ++ c.toBytes) := by
    rw [hbytes1]
    simp only [List.append_assoc]
  obtain ⟨b2, hb2, hbytes2⟩ := memcpy_of_append hbytes1' _
    (show b1.getCIDF.m_location = (dataArea recs).length by rw [hcidf1, hc]) hl1.symm
  -- the CIDF
  have hbytes2' : b2.bytes
      = (dataArea recs ++ data ++ (f2 ++ rdfBytes ++ rdfArea recs)) ++ c.toBytes := by
    rw [hbytes2]
    simp only [List.append_assoc]
  have hcidf2 : b2.getCIDF = c := getCIDF_of_append hbytes2' hcf hcl
  obtain ⟨c', hc'⟩ : ∃ c' : CIDF, c' = ⟨f2.length, (dataArea (recs ++ [⟨key, data⟩])).length,
      flags ||| eBLF_Dirty⟩ := ⟨_, rfl⟩
  have hput : CIDF.mk (u16 ((c.m_amoutOfFreeSpace : ℕ) - ((data.length : ℕ) + (sizeofRDF : ℕ))))
      (u16 ((c.m_location : ℕ) + (data.length : ℕ))) (c.m_flags ||| eBLF_Dirty) = c' := by
    rw [hc', CIDF.mk.injEq]
    refine ⟨?_, ?_, by rw [hc]⟩
    · simp only [hc, List.length_append, u16, sizeofRDF]
      omega
    · simp only [hc, u16, dataArea_append, dataArea_cons, dataArea_nil, List.append_nil,
        List.length_append]
      omega
  have hcidf0 : b.getCIDF = c := by rw [hs.getCIDF, hc]
  have hroom : ¬ c.m_amoutOfFreeSpace < data.length + sizeofRDF := by
    simp only [hc, List.length_append, sizeofRDF]
    omega
  refine ⟨b2.putCIDF c', f2, ?_, ?_⟩
  · rw [writeRecord]
    simp only [hcidf0]
    rw [if_neg hroom, ← hr, hb1]
    simp only [Option.bind_eq_bind, Option.bind_some, hb2, hcidf2, hput]
    rfl
  · rw [Shape, putCIDF_of_append hbytes2', layout, hc']
    simp only [dataArea_append, dataArea_cons, dataArea_nil, rdfArea_append, rdfArea_cons,
      rdfArea_nil, List.append_nil, List.nil_append, List.append_assoc, Record.rdf, hr]

/-- Deleting by RDF takes the record out and clears the free area. -/
theorem deleteRecordByRDF_shape {b : Block} {pre post : List Record} {r : Record}
    {free : List UInt8} {flags : UInt8} (hs : b.Shape (pre ++ r :: post) free flags) :
    ∃ b' free', b.deleteRecordByRDF (CIDFOffset - sizeofRDF - sizeofRDF * pre.length)
        (dataArea pre).length = some b'
      ∧ b'.Shape (pre ++ post) free' (flags ||| eBLF_Dirty) := by
  have ht := hs.total
  have hload := hs.loadRDF
  obtain ⟨c, hc⟩ : ∃ c : CIDF, c = ⟨free.length, (dataArea (pre ++ r :: post)).length, flags⟩ :=
    ⟨_, rfl⟩
  simp only [dataArea_append, dataArea_cons, List.length_append, List.length_cons, CIDFOffset,
    BLOCK_SIZE, sizeofCIDF, sizeofRDF] at ht
  have hloc : c.m_location
      = (dataArea pre).length + r.data.length + (dataArea post).length := by
    simp only [hc, dataArea_append, dataArea_cons, List.length_append]
    omega
  have hcf : c.m_amoutOfFreeSpace < 65536 := by rw [hc]; show free.length < 65536; omega
  have hcl : c.m_location < 65536 := by omega
  -- move the records behind it down
  have hb0 : b.bytes = dataArea pre ++ r.data ++ dataArea post
      ++ (free ++ rdfArea (pre ++ r :: post) ++ c.toBytes) := by
    rw [hs, layout, ← hc]
    simp only [dataArea_append, dataArea_cons, List.append_assoc]
  obtain ⟨b1, junk1, hb1, hj1, hbytes1⟩ := memmoveInt_down hb0 (dataArea pre).length
    ((dataArea pre).length + r.data.length)
    ((c.m_location : ℕ) - ((dataArea pre).length + r.data.length : ℕ)) rfl rfl (by omega)
  have hbytes1' : b1.bytes = (dataArea pre ++ dataArea post ++ junk1 ++ free
      ++ rdfArea (pre ++ r :: post)) ++ c.toBytes := by
    rw [hbytes1]
    simp only [List.append_assoc]
  have hcidf1 : b1.getCIDF = c := getCIDF_of_append hbytes1' hcf hcl
  -- move the RDFs in front of its RDF up
  have hbytes1'' : b1.bytes = (dataArea pre ++ dataArea post ++ junk1 ++ free) ++ rdfArea post
      ++ r.rdf.toBytes ++ (rdfArea pre ++ c.toBytes) := by
    rw [hbytes1']
    simp only [rdfArea_append, rdfArea_cons, List.append_assoc]
  have hend : c.m_location + c.m_amoutOfFreeSpace
      = (dataArea pre ++ dataArea post ++ junk1 ++ free).length := by
    simp only [hc, dataArea_append, dataArea_cons, List.length_append, hj1]
    omega
  obtain ⟨b2, junk2, hb2, hj2, hbytes2⟩ := memmoveInt_up hbytes1''
    (c.m_location + c.m_amoutOfFreeSpace + sizeofRDF) (c.m_location + c.m_amoutOfFreeSpace)
    ((CIDFOffset - sizeofRDF - sizeofRDF * pre.length : ℕ)
      - (c.m_location + c.m_amoutOfFreeSpace : ℕ)) hend
    (by rw [hend, RDF.length_toBytes])
    (by
      simp only [hc, dataArea_append, dataArea_cons, List.length_append, length_rdfArea,
        CIDFOffset, BLOCK_SIZE, sizeofCIDF, sizeofRDF]
      omega)
  rw [RDF.length_toBytes, sizeofRDF] at hj2
  -- the CIDF
  have hbytes2' : b2.bytes = (dataArea pre ++ dataArea post ++ (junk1 ++ free ++ junk2)
      ++ (rdfArea post ++ rdfArea pre)) ++ c.toBytes := by
    rw [hbytes2]
    simp only [List.append_assoc]
  have hcidf2 : b2.getCIDF = c := getCIDF_of_append hbytes2' hcf hcl
  obtain ⟨c', hc'⟩ : ∃ c' : CIDF, c' = ⟨(junk1 ++ free ++ junk2).length,
      (dataArea (pre ++ post)).length, flags ||| eBLF_Dirty⟩ := ⟨_, rfl⟩
  have hbytes3 := putCIDF_of_append hbytes2' c'
  have hcf' : c'.m_amoutOfFreeSpace < 65536 := by
    simp only [hc', List.length_append, hj1, hj2]
    omega
  have hcl' : c'.m_location < 65536 := by
    simp only [hc', dataArea_append, List.length_append]
    omega
  have hcidf3 : (b2.putCIDF c').getCIDF = c' := getCIDF_of_append hbytes3 hcf' hcl'
  have hput : CIDF.mk (u16 ((c.m_amoutOfFreeSpace : ℕ) + ((r.data.length : ℕ) + (sizeofRDF : ℕ))))
      (u16 ((c.m_location : ℕ) - (r.data.length : ℕ))) (c.m_flags ||| eBLF_Dirty) = c' := by
    rw [hc', CIDF.mk.injEq]
    refine ⟨?_, ?_, by rw [hc]⟩
    · simp only [u16, hc, List.length_append, hj1, hj2, sizeofRDF]
      omega
    · simp only [u16, hloc, dataArea_append, List.length_append]
      omega
  -- clear the free area
  have hbytes3' : (b2.putCIDF c').bytes = (dataArea pre ++ dataArea post)
      ++ (junk1 ++ free ++ junk2) ++ ((rdfArea post ++ rdfArea pre) ++ c'.toBytes) := by
    rw [hbytes3]
    simp only [List.append_assoc]
  obtain ⟨b4, hb4, hbytes4⟩ := memcpy_of_append hbytes3' _
    (show c'.m_location = (dataArea pre ++ dataArea post).length by
      rw [hc']
      simp only [dataArea_append])
    (show (List.replicate c'.m_amoutOfFreeSpace (0 : UInt8)).length
        = (junk1 ++ free ++ junk2).length by rw [List.length_replicate, hc'])
  have hcidf0 : b.getCIDF = c := by rw [hs.getCIDF, hc]
  refine ⟨b4, List.replicate c'.m_amoutOfFreeSpace 0, ?_, ?_⟩
  · rw [deleteRecordByRDF, hload]
    simp only [Option.bind_eq_bind, Option.bind_some, Record.rdf, hcidf0]
    rw [hb1]
    simp only [Option.bind_some, hcidf1]
    rw [hb2]
    simp only [Option.bind_some, hcidf2]
    rw [hput, hcidf3]
    exact hb4
  · rw [Shape, hbytes4, layout, List.length_replicate]
    simp only [dataArea_append, rdfArea_append, List.append_assoc, hc']

/-- A record of the same length is overwritten where it stands. -/
theorem updateRecord_same {b : Block} {pre post : List Record} {r : Record} {free : List UInt8}
    {flags : UInt8} {data : List UInt8} (hs : b.Shape (pre ++ r :: post) free flags)
    (hne : ∀ x ∈ pre, x.key ≠ r.key) (hlen : data.length = r.data.length) :
    ∃ b', b.updateRecord r.key data = some (.ok, b')
      ∧ b'.Shape (pre ++ ⟨r.key, data⟩ :: post) free (flags ||| eBLF_Dirty) := by
  have ht := hs.total
  obtain ⟨c, hc⟩ : ∃ c : CIDF, c = ⟨free.length, (dataArea (pre ++ r :: post)).length, flags⟩ :=
    ⟨_, rfl⟩
  simp only [CIDFOffset, BLOCK_SIZE, sizeofCIDF] at ht
  have hb0 : b.bytes = dataArea pre ++ r.data
      ++ (dataArea post ++ free ++ rdfArea (pre ++ r :: post) ++ c.toBytes) := by
    rw [hs, layout, ← hc]
    simp only [dataArea_append, dataArea_cons, List.append_assoc]
  obtain ⟨b1, hb1, hbytes1⟩ := memcpy_of_append hb0 (dataArea pre).length rfl hlen
  have hbytes1' : b1.bytes = (dataArea pre ++ data ++ dataArea post ++ free
      ++ rdfArea (pre ++ r :: post)) ++ c.toBytes := by
    rw [hbytes1]
    simp only [List.append_assoc]
  have hcidf1 : b1.getCIDF = c := by
    refine getCIDF_of_append hbytes1' ?_ ?_ <;> rw [hc] <;> simp only <;> omega
  refine ⟨b1.putCIDF { c with m_flags := c.m_flags ||| eBLF_Dirty }, ?_, ?_⟩
  · rw [updateRecord, containsKey_mem hs hne, Option.bind_eq_bind, Option.bind_some]
    simp only [hs.loadRDF, Option.bind_eq_bind, Option.bind_some, Record.rdf, hlen, if_true]
    rw [hb1, Option.bind_some, hcidf1]
    rfl
  · rw [Shape, putCIDF_of_append hbytes1', layout, hc]
    simp only [dataArea_append, dataArea_cons, rdfArea_append, rdfArea_cons, Record.rdf,
      List.length_append, hlen, List.append_assoc]

/-- A record of another length is deleted and written again. -/
theorem updateRecord_other {b : Block} {pre post : List Record} {r : Record} {free : List UInt8}
    {flags : UInt8} {data : List UInt8} (hs : b.Shape (pre ++ r :: post) free flags)
    (hne : ∀ x ∈ pre, x.key ≠ r.key) (hlen : data.length ≠ r.data.length) :
    ∃ (b' : Block) (free' : List UInt8), b.updateRecord r.key data = b'.writeRecord r.key data
      ∧ b'.Shape (pre ++ post) free' (flags ||| eBLF_Dirty) := by
  obtain ⟨b', free', hdel, hs'⟩ := deleteRecordByRDF_shape hs
  refine ⟨b', free', ?_, hs'⟩
  rw [updateRecord, containsKey_mem hs hne, Option.bind_eq_bind, Option.bind_some]
  simp only [hs.loadRDF, Option.bind_eq_bind, Option.bind_some, Record.rdf, if_neg hlen]
  rw [hdel, Option.bind_some]

/-! ## The same, for a block that holds a list of records -/

namespace Holds

variable {b : Block} {recs pre post : List Record} {r : Record}

/-- The keys in front of a record are not its key. -/
theorem key_ne (h : b.Holds (pre ++ r :: post)) : ∀ x ∈ pre, x.key ≠ r.key := by
  intro x hx hkey
  have hnd := h.nodup
  rw [keys, List.map_append, List.map_cons, List.nodup_append] at hnd
  exact hnd.2.2 x.key (List.mem_map_of_mem hx) r.key List.mem_cons_self hkey

/-- The room left: what the records and their RDFs do not use. -/
theorem freeSpace (h : b.Holds recs) :
    b.getCIDF.m_amoutOfFreeSpace + (dataArea recs).length + sizeofRDF * recs.length
      = CIDFOffset := by
  obtain ⟨free, flags, hs⟩ := h.shape
  have ht := hs.total
  rw [hs.getCIDF]
  simp only
  omega

theorem writeRecord_full (h : b.Holds recs) (key : UInt64) {data : List UInt8}
    (hfull : b.getCIDF.m_amoutOfFreeSpace < data.length + sizeofRDF) :
    b.writeRecord key data = some (.noSpaceForNewData, b) := by
  obtain ⟨free, flags, hs⟩ := h.shape
  rw [hs.getCIDF] at hfull
  exact Block.writeRecord_full key hs hfull

theorem writeRecord_fits (h : b.Holds recs) {key : UInt64} (hkey : key ∉ keys recs)
    {data : List UInt8} (hfit : data.length + sizeofRDF ≤ b.getCIDF.m_amoutOfFreeSpace) :
    ∃ b', b.writeRecord key data = some (.ok, b') ∧ b'.Holds (recs ++ [⟨key, data⟩])
      ∧ b'.isDirty = true := by
  obtain ⟨free, flags, hs⟩ := h.shape
  rw [hs.getCIDF] at hfit
  obtain ⟨b', free', hw, hs'⟩ := Block.writeRecord_fits key hs hfit
  refine ⟨b', hw, ⟨⟨free', _, hs'⟩, ?_⟩, hs'.isDirty.trans (or_dirty flags)⟩
  rw [keys, List.map_append]
  exact List.nodup_append.mpr ⟨h.nodup, List.nodup_singleton _,
    fun x hx y hy hxy => hkey (by rwa [hxy, List.mem_singleton.mp hy] at hx)⟩

theorem deleteRecordByKey (h : b.Holds (pre ++ r :: post)) :
    ∃ b', b.deleteRecordByKey r.key = some (.ok, b') ∧ b'.Holds (pre ++ post)
      ∧ b'.isDirty = true := by
  obtain ⟨free, flags, hs⟩ := h.shape
  obtain ⟨b', free', hdel, hs'⟩ := deleteRecordByRDF_shape hs
  refine ⟨b', ?_, ⟨⟨free', _, hs'⟩, ?_⟩, hs'.isDirty.trans (or_dirty flags)⟩
  · rw [Block.deleteRecordByKey, containsKey_mem hs h.key_ne, Option.bind_eq_bind, Option.bind_some]
    simp only [hdel]
    rfl
  · have hnd := h.nodup
    rw [keys, List.map_append, List.map_cons] at hnd
    rw [keys, List.map_append]
    exact (List.nodup_middle.mp hnd).of_cons

/-- Update in place. -/
theorem updateRecord_same (h : b.Holds (pre ++ r :: post)) {data : List UInt8}
    (hlen : data.length = r.data.length) :
    ∃ b', b.updateRecord r.key data = some (.ok, b')
      ∧ b'.Holds (pre ++ ⟨r.key, data⟩ :: post) ∧ b'.isDirty = true := by
  obtain ⟨free, flags, hs⟩ := h.shape
  obtain ⟨b', hup, hs'⟩ := Block.updateRecord_same hs h.key_ne hlen
  refine ⟨b', hup, ⟨⟨free, _, hs'⟩, ?_⟩, hs'.isDirty.trans (or_dirty flags)⟩
  have hnd := h.nodup
  rw [keys, List.map_append, List.map_cons] at hnd ⊢
  exact hnd

/-- Update to another length: the record moves to the end of the block, or, when
the block has no room for it, is taken out of it. -/
theorem updateRecord_other (h : b.Holds (pre ++ r :: post)) {data : List UInt8}
    (hlen : data.length ≠ r.data.length) :
    ∃ b', b'.isDirty = true ∧
      (b.updateRecord r.key data = some (.ok, b') ∧ b'.Holds (pre ++ post ++ [⟨r.key, data⟩])
          ∧ data.length ≤ b.getCIDF.m_amoutOfFreeSpace + r.data.length
        ∨ b.updateRecord r.key data = some (.noSpaceForNewData, b') ∧ b'.Holds (pre ++ post)
          ∧ b.getCIDF.m_amoutOfFreeSpace + r.data.length < data.length) := by
  have hroom := h.freeSpace
  obtain ⟨free, flags, hs⟩ := h.shape
  obtain ⟨b1, free1, hup, hs1⟩ := Block.updateRecord_other hs h.key_ne hlen
  have hdirty1 := hs1.isDirty.trans (or_dirty flags)
  have hnd := h.nodup
  rw [keys, List.map_append, List.map_cons] at hnd
  have hnd' := List.nodup_middle.mp hnd
  rw [← List.map_append, List.nodup_cons] at hnd'
  have h1 : b1.Holds (pre ++ post) := ⟨⟨free1, _, hs1⟩, hnd'.2⟩
  have hroom1 := h1.freeSpace
  simp only [dataArea_append, dataArea_cons, List.length_append, List.length_cons,
    sizeofRDF] at hroom hroom1
  by_cases hfit : data.length + sizeofRDF ≤ b1.getCIDF.m_amoutOfFreeSpace
  · obtain ⟨b2, hw, h2, hd2⟩ := h1.writeRecord_fits hnd'.1 hfit
    refine ⟨b2, hd2, Or.inl ⟨hup.trans hw, h2, ?_⟩⟩
    rw [sizeofRDF] at hfit
    omega
  · refine ⟨b1, hdirty1, Or.inr ⟨hup.trans (h1.writeRecord_full r.key (by omega)), h1, ?_⟩⟩
    rw [sizeofRDF] at hfit
    omega

end Holds

/-! ## Reading the records back

`records` is the specification's reader: it takes the record count from the
CIDF and reads that many RDFs, so it is total and never leaves the block. -/

/-- The next `n` records, from an RDF and a record offset. -/
def recordsFrom (b : Block) : ℕ → ℕ → ℕ → List Record
  | 0, _, _ => []
  | n + 1, RDFposition, recordPosition =>
    match b.loadRDF RDFposition with
    | none => []
    | some rdf =>
      { key := rdf.m_key, data := slice b.bytes recordPosition rdf.m_recordLength }
        :: recordsFrom b n (RDFposition - sizeofRDF) (recordPosition + rdf.m_recordLength)

/-- The records of a block. -/
def records (b : Block) : List Record :=
  let cidf := b.getCIDF
  b.recordsFrom ((CIDFOffset - (cidf.m_location + cidf.m_amoutOfFreeSpace)) / sizeofRDF)
    (CIDFOffset - sizeofRDF) 0

theorem recordsFrom_shape {b : Block} {free : List UInt8} {flags : UInt8} (post : List Record) :
    ∀ pre : List Record, b.Shape (pre ++ post) free flags →
      b.recordsFrom post.length (CIDFOffset - sizeofRDF - sizeofRDF * pre.length)
        (dataArea pre).length = post := by
  induction post with
  | nil =>
    intro pre _
    rfl
  | cons r post ih =>
    intro pre hs
    have hdata := hs.loadData
    rw [load] at hdata
    split at hdata
    · have hpos : CIDFOffset - sizeofRDF - sizeofRDF * pre.length - sizeofRDF
          = CIDFOffset - sizeofRDF - sizeofRDF * (pre ++ [r]).length := by
        rw [List.length_append, List.length_singleton, Nat.mul_add, Nat.mul_one, Nat.sub_sub]
      have hrec : (dataArea pre).length + r.data.length = (dataArea (pre ++ [r])).length := by
        simp only [dataArea_append, dataArea_cons, dataArea_nil, List.append_nil,
          List.length_append]
      rw [List.length_cons, recordsFrom, hs.loadRDF]
      simp only [Record.rdf, Option.some.inj hdata, hpos, hrec]
      rw [ih (pre ++ [r]) (by simpa only [List.append_assoc, List.singleton_append] using hs)]
    · cases hdata

/-- The reader returns the records a block holds. -/
theorem Holds.records_eq {b : Block} {recs : List Record} (h : b.Holds recs) : b.records = recs := by
  obtain ⟨free, flags, hs⟩ := h.shape
  have ht := hs.total
  have hcount : (CIDFOffset - (b.getCIDF.m_location + b.getCIDF.m_amoutOfFreeSpace)) / sizeofRDF
      = recs.length := by
    rw [hs.getCIDF]
    simp only [sizeofRDF] at ht ⊢
    omega
  rw [records]
  simp only [hcount]
  simpa only [dataArea_nil, List.length_nil, Nat.mul_zero, Nat.sub_zero]
    using recordsFrom_shape recs [] hs

end Block

end TransDB
