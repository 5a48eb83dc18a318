/-
Reading through a block manager.

Whether a stored record is a gzip stream is written nowhere: a reader looks at its
first two bytes. With gzip wrappers that keep their contract this is right of every
record that was compressed, and of a record that was stored as it is unless it is a
gzip stream itself. Then a reader is given what the stream decompresses to.
-/
import TransDB.BlockBuilt
import TransDB.BlockRead

set_option autoImplicit false

namespace TransDB

open ByteList Record

/-! ## The gzip wrappers -/

/-- The contract of the gzip wrappers. -/
structure GzipOk (sh : Shared) : Prop where
  /-- `CCommon_isGziped` tests for the magic bytes at the address. -/
  magic : ∀ mem, sh.isGziped mem = true ↔ mem.take 2 = [0x1F, 0x8B]
  /-- `CCommon_decompressGzip` refuses what does not start with them. -/
  refuses : ∀ bytes, bytes.take 2 ≠ [0x1F, 0x8B] → sh.decompressGzip bytes = none
  /-- It inverts `CCommon_compressGzip_Buffer`. -/
  inverse : ∀ (level : Int) (bytes out : List UInt8),
    sh.compressGzip level bytes = some out → sh.decompressGzip out = some bytes

/-- The wrappers when the only stream in sight is this one. -/
def Shared.oneStream (stream out : List UInt8) : Shared :=
  { Shared.plain with decompressGzip := fun bytes => if bytes = stream then some out else none }

theorem Shared.gzipOk_oneStream {stream : List UInt8} (out : List UInt8)
    (hmagic : stream.take 2 = [0x1F, 0x8B]) : GzipOk (Shared.oneStream stream out) where
  magic := by
    intro mem
    exact decide_eq_true_iff
  refuses := by
    intro bytes hne
    refine if_neg ?_
    rintro rfl
    exact hne hmagic
  inverse := by
    intro level bytes o h
    cases h

theorem Shared.gzipOk_plain : GzipOk Shared.plain where
  magic := by
    intro mem
    exact decide_eq_true_iff
  refuses := fun _ _ => rfl
  inverse := by
    intro level bytes out h
    cases h

section Gzip

variable (sh : Shared)

/-- What a reader is given for stored bytes. -/
def expand (stored : List UInt8) : List UInt8 := (sh.decompressGzip stored).getD stored

/-- The write stores the record as it is. -/
def StoredRaw (cfg : WriteCfg) (record : List UInt8) : Prop :=
  ∀ out, cfg.RecordSizeForCompression < record.length →
    sh.compressGzip cfg.GzipCompressionLevel record = some out → record.length ≤ out.length

/-- The record is itself a gzip stream, of other bytes. -/
def ReadsAsOther (record : List UInt8) : Prop :=
  ∃ out, sh.decompressGzip record = some out ∧ out ≠ record

variable {sh}

theorem expand_eq_self {record : List UInt8} : expand sh record = record ↔ ¬ ReadsAsOther sh record := by
  rw [expand, ReadsAsOther]
  cases hdec : sh.decompressGzip record with
  | none =>
    refine iff_of_true rfl ?_
    rintro ⟨out, hout, -⟩
    cases hout
  | some o =>
    constructor
    · rintro heq ⟨out, hout, hne⟩
      cases hout
      exact hne heq
    · intro hnot
      by_contra hne
      exact hnot ⟨o, rfl, hne⟩

theorem compressRecord_raw {cfg : WriteCfg} {record : List UInt8} (h : StoredRaw sh cfg record) :
    Blman.compressRecord sh cfg record = record := by
  rw [Blman.compressRecord]
  split
  · next hsize =>
    split
    · next out hout => rw [if_neg (Nat.not_lt.mpr (h out hsize hout))]
    · rfl
  · rfl

theorem expand_compressed (hz : GzipOk sh) {cfg : WriteCfg} {record : List UInt8}
    (h : ¬ StoredRaw sh cfg record) : expand sh (Blman.compressRecord sh cfg record) = record := by
  simp only [StoredRaw, not_forall, Nat.not_le] at h
  obtain ⟨out, hsize, hout, hlt⟩ := h
  have hstored : Blman.compressRecord sh cfg record = out := by
    rw [Blman.compressRecord, if_pos hsize, hout]
    exact if_pos hlt
  rw [hstored, expand, hz.inverse _ _ _ hout]
  rfl

/-- A record comes back, unless it is stored as it is and reads as another. -/
theorem expand_compressRecord (hz : GzipOk sh) (cfg : WriteCfg) (record : List UInt8) :
    expand sh (Blman.compressRecord sh cfg record) = record
      ↔ ¬ (StoredRaw sh cfg record ∧ ReadsAsOther sh record) := by
  by_cases hraw : StoredRaw sh cfg record
  · rw [compressRecord_raw hraw, expand_eq_self]
    exact not_congr (and_iff_right hraw).symm
  · exact iff_of_true (expand_compressed hz hraw) fun h => hraw h.1

/-- The bytes of the neighbour make no difference to what a reader is given. -/
theorem payload_eq_expand (hz : GzipOk sh) (stored rest : List UInt8) :
    Block.payload sh stored (stored ++ rest) = expand sh stored := by
  rw [Block.payload]
  by_cases hgz : sh.isGziped (stored ++ rest) = true
  · rw [if_pos hgz]
    rfl
  · rw [if_neg hgz]
    have hmagic : stored.take 2 ≠ [0x1F, 0x8B] := by
      intro htake
      have hlen : 2 ≤ stored.length := by
        have hle := congrArg List.length htake
        rw [List.length_take] at hle
        have htwo : min 2 stored.length = 2 := hle
        omega
      refine hgz ((hz.magic _).mpr ?_)
      rw [List.take_append_of_le_length hlen, htake]
    rw [expand, hz.refuses stored hmagic]
    rfl

theorem Block.Holds.getRecord_empty (hz : GzipOk sh) {b : Block} {pre post : List Record}
    {r : Record} (h : b.Holds (pre ++ r :: post)) :
    b.getRecord sh r.key [] = some (expand sh r.data) := by
  obtain ⟨free, flags, hs⟩ := h.shape
  obtain ⟨rest, hmem⟩ := hs.drop_data
  have hpay := payload_eq_expand hz r.data rest
  rw [(h.single_iff sh []).mpr (Or.inl rfl), hmem, hpay]
  rfl

end Gzip

/-! ## A manager -/

namespace Blman

section Read

variable {sh : Shared} {m m' : Blman}

/-- A read into an empty buffer. -/
theorem Inv.readRecord_eq (hz : GzipOk sh) (h : m.Inv) (k : UInt64) :
    m.readRecord sh k [] = some (((m.contents k).map (expand sh)).getD []) := by
  rw [readRecord]
  cases hl : m.blockIndex.lookup k with
  | none =>
    rw [h.contents_eq_none.mpr (AList.lookup_eq_none.mp hl)]
    rfl
  | some n =>
    obtain ⟨b, hb, hk⟩ := (h.index k n).mp hl
    obtain ⟨pre, r, post, hrecs, rfl⟩ := Block.exists_split hk
    have hv := h.valid b (List.mem_of_getElem? hb)
    have hh : b.Holds (pre ++ r :: post) := hrecs ▸ hv
    have hget : b.get r.key = some r.data := by
      rw [hh.get_eq, find_middle hh.nodup]
    rw [h.contents_eq_some.mpr ⟨n, b, hb, hget⟩]
    show (m.getBlock n).bind (fun block => block.getRecord sh r.key []) = some (expand sh r.data)
    rw [getBlock, hb, Option.bind_some, hh.getRecord_empty hz]

/-- The record that was written reads back, and so does every other key that the write
has not removed. -/
structure ReadsBack (sh : Shared) (m m' : Blman) (recordkey : UInt64) (record : List UInt8) :
    Prop where
  own : m'.readRecord sh recordkey [] = some record
  others : ∀ k, k ≠ recordkey → (k ∈ m.blockIndex → k ∈ m'.blockIndex) →
    m'.readRecord sh k [] = m.readRecord sh k []

theorem Wrote.readsBack_iff (hz : GzipOk sh) (hm : m.Inv) {cfg : WriteCfg} {recordkey : UInt64}
    {record : List UInt8} {st : WriteStatus} (hw : m.Wrote sh cfg recordkey record st m')
    (hsmall : st.failRecordTooBig = false) (hnew : st.oldRecord = false) :
    ReadsBack sh m m' recordkey record
      ↔ ¬ (StoredRaw sh cfg record ∧ ReadsAsOther sh record) := by
  have hm' := hw.inv hm
  have hcontents := hw.contents hsmall hnew
  have hown : m'.readRecord sh recordkey []
      = some (expand sh (compressRecord sh cfg record)) := by
    rw [hm'.readRecord_eq hz, hcontents, Function.update_self]
    rfl
  have hothers : ∀ k, k ≠ recordkey → (k ∈ m.blockIndex → k ∈ m'.blockIndex) →
      m'.readRecord sh k [] = m.readRecord sh k [] := by
    intro k hk hkept
    have hsame : m'.contents k = m.contents k := by
      have hval := congrFun hcontents k
      rw [Function.update_of_ne hk, RecordMap.removeKeys] at hval
      by_cases hrem : k ∈ removedKeys sh cfg m recordkey record
      · rw [if_pos hrem] at hval
        have hgone : k ∉ m.blockIndex := fun hin => hm'.contents_eq_none.mp hval (hkept hin)
        rw [hval, hm.contents_eq_none.mpr hgone]
      · rw [if_neg hrem] at hval
        exact hval
    rw [hm'.readRecord_eq hz, hm.readRecord_eq hz, hsame]
  rw [← expand_compressRecord hz cfg record]
  constructor
  · intro h
    exact Option.some.inj (hown.symm.trans h.own)
  · intro heq
    exact ⟨by rw [hown, heq], hothers⟩

/-- **Read your writes.** A write returns, and what it has not refused reads back,
exactly when the record is not a gzip stream of other bytes that is stored as it is. -/
theorem read_your_write_iff (hz : GzipOk sh) (hm : Live sh m) (cfg : WriteCfg)
    (recordkey : UInt64) (record : List UInt8) :
    (LimitOk cfg → m.blockCount + 1 < 65536 →
        ∃ st m', m.writeRecord sh cfg recordkey record = some (st, m'))
      ∧ ∀ st m', m.writeRecord sh cfg recordkey record = some (st, m') →
        st.failRecordTooBig = false → st.oldRecord = false →
        (ReadsBack sh m m' recordkey record
          ↔ ¬ (StoredRaw sh cfg record ∧ ReadsAsOther sh record)) := by
  have hinv := hm.inv
  constructor
  · intro hcfg hcount
    rcases writeRecord_spec m sh cfg recordkey record hinv with
      ⟨st, m', hw, -⟩ | ⟨-, ⟨hen, j, hj⟩ | hwrap⟩
    · exact ⟨st, m', hw⟩
    · rw [hcfg.not_zero hen j] at hj
      cases hj
    · exact absurd hcount hwrap
  · intro st m' hw hsmall hnew
    exact (writeRecord_cases hinv hw).readsBack_iff hz hinv hsmall hnew

end Read

/-- The configuration of a server that compresses records of more than 256 bytes. -/
def defaultWriteCfg : WriteCfg := ⟨256, 5, false, fun _ => 1000, 5⟩

/-- Three bytes written to a new manager. -/
theorem read_your_write_iff_raw : ∃ m st m', create none = some m
    ∧ m.writeRecord Shared.plain defaultWriteCfg 7 [1, 2, 3] = some (st, m')
    ∧ ReadsBack Shared.plain m m' 7 [1, 2, 3] := by
  obtain ⟨m, hc, hinv, -⟩ := create_none
  have hone : m.blockCount + 1 < 65536 := by
    rw [← Option.some.inj (Eq.trans rfl hc)]
    decide
  obtain ⟨hret, hread⟩ := read_your_write_iff Shared.gzipOk_plain (.new m hc)
    defaultWriteCfg 7 [1, 2, 3]
  obtain ⟨st, m', hw⟩ := hret (Or.inl rfl) hone
  have hplain : ¬ (StoredRaw Shared.plain defaultWriteCfg [1, 2, 3]
      ∧ ReadsAsOther Shared.plain [1, 2, 3]) := by
    rintro ⟨-, out, hout, -⟩
    cases hout
  cases writeRecord_cases hinv hw with
  | tooBig hsize => exact absurd hsize (by decide)
  | updated _ _ _ _ _ => exact ⟨m, _, m', hc, hw, (hread _ m' hw rfl rfl).mpr hplain⟩
  | refused _ _ _ _ _ _ hold _ _ => cases hold
  | stored _ _ _ hst hsmall _ _ _ _ _ _ _ =>
    exact ⟨m, st, m', hc, hw, (hread st m' hw hsmall hst).mpr hplain⟩

/-- The gzip stream of the one byte 65. -/
def streamOfA : List UInt8 :=
  [0x1F, 0x8B, 0x08, 0, 0, 0, 0, 0, 0x02, 0x03, 0x73, 0x04, 0x00, 0x8B, 0x9E, 0xD9, 0xD3, 1, 0, 0, 0]

/-- That stream written to a new manager reads back as the one byte. -/
theorem read_your_write_fails : GzipOk (Shared.oneStream streamOfA [65]) ∧
    ∃ m st m', create none = some m
      ∧ m.writeRecord (Shared.oneStream streamOfA [65]) defaultWriteCfg 7 streamOfA = some (st, m')
      ∧ st.failRecordTooBig = false ∧ st.oldRecord = false
      ∧ m'.readRecord (Shared.oneStream streamOfA [65]) 7 [] = some [65] := by
  have hz : GzipOk (Shared.oneStream streamOfA [65]) := Shared.gzipOk_oneStream [65] rfl
  obtain ⟨m, hc, hinv, -⟩ := create_none
  have hone : m.blockCount + 1 < 65536 := by
    rw [← Option.some.inj (Eq.trans rfl hc)]
    decide
  have hstored : compressRecord (Shared.oneStream streamOfA [65]) defaultWriteCfg streamOfA
      = streamOfA := rfl
  have hexpand : expand (Shared.oneStream streamOfA [65]) streamOfA = [65] := rfl
  rcases writeRecord_spec m (Shared.oneStream streamOfA [65]) defaultWriteCfg 7 streamOfA hinv with
    ⟨st, m', hw, hwrote⟩ | ⟨-, ⟨hen, -⟩ | hwrap⟩
  · have hkept : st.failRecordTooBig = false ∧ st.oldRecord = false := by
      cases hwrote with
      | tooBig hsize => exact absurd hsize (by decide)
      | updated _ _ _ _ _ => exact ⟨rfl, rfl⟩
      | refused _ _ _ _ _ _ hold _ _ => cases hold
      | stored _ _ _ hst hsmall _ _ _ _ _ _ _ => exact ⟨hsmall, hst⟩
    refine ⟨hz, m, st, m', hc, hw, hkept.1, hkept.2, ?_⟩
    rw [(hwrote.inv hinv).readRecord_eq hz, hwrote.contents hkept.1 hkept.2, Function.update_self,
      hstored, ← hexpand]
    rfl
  · cases hen
  · exact absurd hone hwrap

end Blman

end TransDB
