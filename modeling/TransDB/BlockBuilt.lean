/-
Where the scans over a block stop.

`builder` goes through the blocks that `Block_InitBlock` and the functions that write lead
to, `Live` are the managers that those of `BlockManager.c` lead to. Their scans read one RDF
in a turn and stop behind the last one, as long as there are fewer than 409. The RDFs
of 409 records, all of them empty, fill the block to its first byte but one: there the
position is 1, the next one is 65527, and the scan reads outside the block.

An update of a key that is not in the block is taken for one of the last record, at the end
of the data. `Overruns` says when its bytes go over the RDFs, and what is scanned after that
are no records.
-/
import TransDB.BlockLookup
import TransDB.BlockManagerLoad
import TransDB.BlockRefines
import TransDB.Machine

set_option autoImplicit false

namespace TransDB

open ByteList Record

namespace Block

/-! ## The blocks that can be built -/

/-- A call of a function that writes. -/
inductive Call
  | write (recordKey : UInt64) (pRecord : List UInt8)
  | update (recordKey : UInt64) (pNewRecord : List UInt8)
  | delete (recordKey : UInt64)

/-- What a call leaves. A block manager writes a key that its index has not; updates and
deletions are of any key. -/
def call (b : Block) : Call → Option (E_BLS × Block)
  | .write recordKey pRecord =>
    if recordKey ∈ keys b.records then none else b.writeRecord recordKey pRecord
  | .update recordKey pNewRecord => b.updateRecord recordKey pNewRecord
  | .delete recordKey => b.deleteRecordByKey recordKey

/-- The blocks from `Block_InitBlock` on. -/
def builder : Machine Block Call where
  init b := ∃ b0 : Block, b = b0.initBlock
  step b c := (b.call c).map Prod.snd

/-- The key is not in the block and the bytes are as many as those of the last record, so that
they are copied behind it, where less than that is free. -/
structure Overruns (b : Block) (recordKey : UInt64) (pNewRecord : List UInt8) : Prop where
  absent : recordKey ∉ keys b.records
  same : ∃ r, b.records.getLast? = some r ∧ pNewRecord.length = r.data.length
  room : b.getCIDF.m_amoutOfFreeSpace < pNewRecord.length

/-- The call writes over no RDF. -/
def Inside (b : Block) (c : Call) (_ : Block) : Prop :=
  ∀ recordKey pNewRecord, c = .update recordKey pNewRecord → ¬ b.Overruns recordKey pNewRecord

namespace Valid

variable {b b' : Block} {recordKey : UInt64} {data : List UInt8} {status : E_BLS}

theorem write_valid (h : b.Valid) (hkey : recordKey ∉ keys b.records)
    (hw : b.writeRecord recordKey data = some (status, b')) : b'.Valid := by
  rcases h.writeRecord (find_eq_none.mpr hkey) data with ⟨b1, hw', hv, -, -⟩ | ⟨hw', -⟩
  · rw [hw] at hw'
    cases hw'
    exact hv
  · rw [hw] at hw'
    cases hw'
    exact h

/-- The last record of a block in which a key is looked for that is not there, if the search
comes to its end. -/
theorem exists_last (h : b.Valid) (hkey : recordKey ∉ keys b.records) (hne : b.records ≠ []) :
    ∃ pre r, b.records = pre ++ [r] ∧ b.Holds (pre ++ [r]) ∧ recordKey ∉ keys (pre ++ [r])
      ∧ ((pre ++ [r]).length < CIDFOffset / sizeofRDF ∨ b.containsKey recordKey = none) := by
  obtain ⟨pre, r, hsplit⟩ := (List.eq_nil_or_concat b.records).resolve_left hne
  rw [List.concat_eq_append] at hsplit
  have hh : b.Holds (pre ++ [r]) := hsplit ▸ h
  rw [hsplit] at hkey
  refine ⟨pre, r, hsplit, hh, hkey, ?_⟩
  by_cases hlen : (pre ++ [r]).length < CIDFOffset / sizeofRDF
  · exact Or.inl hlen
  · obtain ⟨free, flags, hs⟩ := hh.shape
    refine Or.inr ?_
    rw [containsKey_absent hs (keys_ne hkey), if_neg hlen]

theorem update_valid (h : b.Valid) (hover : ¬ b.Overruns recordKey data)
    (hu : b.updateRecord recordKey data = some (status, b')) : b'.Valid := by
  by_cases hkey : recordKey ∈ keys b.records
  · obtain ⟨old, hold⟩ := Option.ne_none_iff_exists'.mp (mem_keys_iff.mp hkey)
    obtain ⟨b1, hv, -, ⟨hu', -, -⟩ | ⟨hu', -, -⟩⟩ := h.updateRecord hold data
    · rw [hu] at hu'
      cases hu'
      exact hv
    · rw [hu] at hu'
      cases hu'
      exact hv
  by_cases hnil : b.records = []
  · have hh : b.Holds [] := hnil ▸ h
    rw [(hh.answeredAbsent_nil recordKey).updateRecord data] at hu
    cases hu
    exact h
  obtain ⟨pre, r, hsplit, hh, hkey', hlen | hnone⟩ := h.exists_last hkey hnil
  · by_cases hdata : data.length = r.data.length
    · have hfit : data.length ≤ b.getCIDF.m_amoutOfFreeSpace := by
        by_contra hover'
        refine hover ⟨hkey, ⟨r, ?_, hdata⟩, Nat.not_le.mp hover'⟩
        rw [hsplit, List.getLast?_concat]
      obtain ⟨b1, hu', hb1⟩ := hh.updateRecord_absent_same hkey' hlen hdata hfit
      rw [hu] at hu'
      cases hu'
      exact hb1.valid
    · have hother := hh.updateRecord_absent_other hkey' hlen hdata
      by_cases hempty : r.data = []
      · rw [if_pos hempty] at hother
        obtain ⟨b1, hu', hb1⟩ := hother
        rw [hu'] at hu
        refine hb1.valid.write_valid ?_ hu
        rw [hb1.records_eq]
        intro hmem
        rw [keys, List.map_append] at hkey'
        exact hkey' (List.mem_append_left _ hmem)
      · rw [if_neg hempty, hu] at hother
        cases hother
  · rw [Block.updateRecord, hnone] at hu
    cases hu

theorem delete_valid (h : b.Valid)
    (hd : b.deleteRecordByKey recordKey = some (status, b')) : b'.Valid := by
  by_cases hkey : recordKey ∈ keys b.records
  · obtain ⟨b1, hd', hv, -, -⟩ := h.deleteRecordByKey (mem_keys_iff.mp hkey)
    rw [hd] at hd'
    cases hd'
    exact hv
  by_cases hnil : b.records = []
  · have hh : b.Holds [] := hnil ▸ h
    rw [(hh.answeredAbsent_nil recordKey).deleteRecordByKey] at hd
    cases hd
    exact h
  obtain ⟨pre, r, hsplit, hh, hkey', hlen | hnone⟩ := h.exists_last hkey hnil
  · have hlast := hh.deleteRecordByKey_absent hkey' hlen
    by_cases hempty : r.data = []
    · rw [if_pos hempty] at hlast
      obtain ⟨b1, hd', hb1⟩ := hlast
      rw [hd] at hd'
      cases hd'
      exact hb1.valid
    · rw [if_neg hempty, hd] at hlast
      cases hlast
  · rw [Block.deleteRecordByKey, hnone] at hd
    cases hd

end Valid

/-- A call that writes over no RDF leaves a block of records. -/
theorem Valid.call {b b' : Block} {c : Call} {status : E_BLS} (h : b.Valid) (hin : b.Inside c b')
    (hc : b.call c = some (status, b')) : b'.Valid := by
  cases c with
  | write recordKey pRecord =>
    rw [Block.call] at hc
    split at hc
    case isTrue => cases hc
    case isFalse hkey => exact h.write_valid hkey hc
  | update recordKey pNewRecord => exact h.update_valid (hin recordKey pNewRecord rfl) hc
  | delete recordKey => exact h.delete_valid hc

section Runs

variable {b : Block} {recs : List Record}

/-- A run that goes on with the write of a new key. -/
theorem Holds.reach_write (h : b.Holds recs) (hb : builder.Reach Inside b) (recordKey : UInt64)
    (pRecord : List UInt8) (hkey : recordKey ∉ keys recs)
    (hfit : (dataArea recs).length + pRecord.length + sizeofRDF * (recs.length + 1) ≤ CIDFOffset) :
    ∃ b', b.writeRecord recordKey pRecord = some (.ok, b') ∧ builder.Reach Inside b'
      ∧ b'.Holds (recs ++ [⟨recordKey, pRecord⟩]) := by
  have hfree := h.freeSpace
  rw [Nat.mul_add_one] at hfit
  have hroom : pRecord.length + sizeofRDF ≤ b.getCIDF.m_amoutOfFreeSpace := by omega
  obtain ⟨b', hw, hb', -⟩ := h.writeRecord_fits hkey hroom
  have hcall : b.call (.write recordKey pRecord) = some (.ok, b') := by
    rw [Block.call, if_neg (by rw [h.records_eq]; exact hkey), hw]
  refine ⟨b', hw, .step b b' _ hb ?_ (congrArg (Option.map Prod.snd) hcall), hb'⟩
  rintro key data ⟨⟩

/-- With the update of a record to another length. -/
theorem Holds.reach_update (pre post : List Record) (r : Record) (h : b.Holds (pre ++ r :: post))
    (hb : builder.Reach Inside b) (pNewRecord : List UInt8)
    (hlen : pNewRecord.length ≠ r.data.length)
    (hfit : (dataArea (pre ++ r :: post)).length + pNewRecord.length
      + sizeofRDF * (pre ++ r :: post).length ≤ CIDFOffset) :
    ∃ b', builder.Reach Inside b' ∧ b'.Holds (pre ++ post ++ [⟨r.key, pNewRecord⟩]) := by
  have hfree := h.freeSpace
  obtain ⟨b', -, ⟨hup, hb', -⟩ | ⟨-, -, hfull⟩⟩ := h.updateRecord_other hlen
  · refine ⟨b', .step b b' (.update r.key pNewRecord) hb ?_ (congrArg (Option.map Prod.snd) hup),
      hb'⟩
    rintro key data ⟨⟩ hover
    refine hover.absent ?_
    rw [h.records_eq]
    exact List.mem_map_of_mem (List.mem_append_right _ List.mem_cons_self)
  · omega

/-- With a deletion. -/
theorem Holds.reach_delete (pre post : List Record) (r : Record) (h : b.Holds (pre ++ r :: post))
    (hb : builder.Reach Inside b) : ∃ b', builder.Reach Inside b' ∧ b'.Holds (pre ++ post) := by
  obtain ⟨b', hdel, hb', -⟩ := h.deleteRecordByKey
  refine ⟨b', .step b b' (.delete r.key) hb ?_ (congrArg (Option.map Prod.snd) hdel), hb'⟩
  rintro key data ⟨⟩

end Runs

/-- A run of such calls keeps to blocks of records. -/
theorem builder_valid {b : Block} (h : builder.Reach Inside b) : b.Valid := by
  refine h.invariant Valid ?_ ?_
  · rintro b ⟨b0, rfl⟩
    exact (initBlock_written b0).describes.holds.valid
  · intro b c b' hb hin hstep
    obtain ⟨⟨status, b1⟩, hc, rfl⟩ := Option.map_eq_some_iff.mp hstep
    exact hb.call hin hc

/-! ## The scans -/

/-- `pCIDF->m_location + pCIDF->m_amoutOfFreeSpace` -/
def endOfRDFArea (b : Block) : ℕ := u16 (b.getCIDF.m_location + b.getCIDF.m_amoutOfFreeSpace)

/-- Each scan reads the RDF of one record in a turn, and stops in the turn behind the
last record. `fuel` are the turns it may take. -/
structure ScansStop (b : Block) : Prop where
  getRecords : ∀ (sh : Shared) (fuel : ℕ) (pData : List UInt8),
    getRecordsLoop sh b b.endOfRDFArea fuel (CIDFOffset - sizeofRDF) 0 pData
      = if b.records.length < fuel then some (pData ++ items sh b 0 b.records) else none
  create : ∀ (fuel i : ℕ) (index : AvlTable),
    Blman.indexLoop b i b.endOfRDFArea fuel (CIDFOffset - sizeofRDF) index
      = if b.records.length < fuel then some (index.insertKeys i (keys b.records)) else none
  containsKey : ∀ (fuel : ℕ) (recordKey : UInt64), recordKey ∉ keys b.records →
    containsKeyLoop b recordKey b.endOfRDFArea fuel (CIDFOffset - sizeofRDF) none 0
      = if b.records.length < fuel then
          some (if b.records = [] then none
              else some (CIDFOffset - sizeofRDF * b.records.length),
            (dataArea b.records).length)
        else none

theorem Valid.scansStop {b : Block} (h : b.Valid) (hscan : b.Scannable) : b.ScansStop := by
  obtain ⟨free, flags, hs⟩ := h.shape
  have hlen : ∀ fuel, (b.records.length < fuel ∧ b.records.length < CIDFOffset / sizeofRDF)
      ↔ b.records.length < fuel := fun fuel => and_iff_left hscan
  refine ⟨?_, ?_, ?_⟩
  · intro sh fuel pData
    have hloop := getRecordsLoop_spec sh b.records [] fuel pData hs
    rw [List.nil_append, if_congr (hlen fuel) rfl rfl] at hloop
    rw [endOfRDFArea, hs.endOfRDFArea]
    exact hloop
  · intro fuel i index
    have hloop := Blman.indexLoop_spec i b.records [] fuel index hs
    rw [List.nil_append, if_congr (hlen fuel) rfl rfl] at hloop
    rw [endOfRDFArea, hs.endOfRDFArea]
    exact hloop
  · intro fuel recordKey hkey
    have hne : ∀ r ∈ b.records, r.key ≠ recordKey := by
      rintro r hr rfl
      exact hkey (List.mem_map_of_mem hr)
    have hloop := containsKeyLoop_absent b.records [] fuel none hs hne
    rw [List.nil_append, if_congr (hlen fuel) rfl rfl] at hloop
    rw [endOfRDFArea, hs.endOfRDFArea]
    exact hloop

/-- A scan whose end is the first byte of the block reads on until it leaves it. -/
theorem getRecordsLoop_zero (sh : Shared) (b : Block) (fuel : ℕ) :
    ∀ (position recordPosition : ℕ) (pData : List UInt8),
      getRecordsLoop sh b 0 fuel position recordPosition pData = none := by
  induction fuel with
  | zero => exact fun _ _ _ => rfl
  | succ fuel ih =>
    intro position recordPosition pData
    rw [getRecordsLoop, if_neg (Nat.not_lt_zero position)]
    simp only [Option.bind_eq_bind, Option.bind_eq_none_iff]
    exact fun _ _ _ _ => ih _ _ _

/-- With 409 records no number of turns is enough. -/
theorem Valid.scan_lost {b : Block} (h : b.Valid) (hscan : ¬ b.Scannable) (sh : Shared)
    (fuel : ℕ) (pData : List UInt8) :
    getRecordsLoop sh b b.endOfRDFArea fuel (CIDFOffset - sizeofRDF) 0 pData = none := by
  obtain ⟨free, flags, hs⟩ := h.shape
  have hloop := getRecordsLoop_spec sh b.records [] fuel pData hs
  rw [List.nil_append, if_neg fun h => hscan h.2] at hloop
  rw [endOfRDFArea, hs.endOfRDFArea]
  exact hloop

theorem Valid.scansStop_iff {b : Block} (h : b.Valid) : b.ScansStop ↔ b.Scannable := by
  refine ⟨?_, h.scansStop⟩
  intro hstop
  by_contra hscan
  have hgot := hstop.getRecords Shared.plain (b.records.length + 1) []
  rw [h.scan_lost hscan, if_pos (Nat.lt_succ_self _)] at hgot
  cases hgot

end Block

namespace Blman

/-! ## Live managers -/

/-- The managers of a server: a new one, one over a copy of the blocks of another,
and what the other functions leave. -/
inductive Live (sh : Shared) : Blman → Prop
  | new (m : Blman) (hc : create none = some m) : Live sh m
  | load (m m' : Blman) (hm : Live sh m) (hc : create (some m.blocks) = some m') : Live sh m'
  | write (m m' : Blman) (cfg : WriteCfg) (recordkey : UInt64) (record : List UInt8)
    (st : WriteStatus) (hm : Live sh m)
    (hw : m.writeRecord sh cfg recordkey record = some (st, m')) : Live sh m'
  | delete (m m' : Blman) (recordkey : UInt64) (hm : Live sh m)
    (hd : m.deleteRecordByKey recordkey = some m') : Live sh m'
  | clearDirtyFlags (m : Blman) (hm : Live sh m) : Live sh m.clearDirtyFlags
  | defragment (m m' : Blman) (cfg : ℕ → WriteCfg) (hm : Live sh m)
    (hd : m.defragmentData sh cfg = some m') : Live sh m'

theorem Live.inv {sh : Shared} {m : Blman} (h : Live sh m) : m.Inv := by
  induction h with
  | new m hc =>
    obtain ⟨m', hc', hinv, -⟩ := create_none
    rw [hc] at hc'
    cases hc'
    exact hinv
  | load m m' _ hc ih => exact (create_some ih.sound ih.nonempty ih.count_lt hc).1
  | write m m' cfg recordkey record st _ hw ih => exact (writeRecord_cases ih hw).inv ih
  | delete m m' recordkey _ hd ih =>
    obtain ⟨m1, hd', hb⟩ := deleteRecordByKey_spec ih recordkey
    rw [hd] at hd'
    cases hd'
    exact hb.inv
  | clearDirtyFlags m _ ih => exact ih.clearDirtyFlags
  | defragment m m' cfg _ hd ih => exact ih.defragmentData hd

/-- `blman_create` over a copy of the blocks returns, with the same index. -/
def RebuildsIndex (m : Blman) : Prop :=
  ∃ m', create (some m.blocks) = some m' ∧ m'.blocks = m.blocks
    ∧ ∀ k, m'.blockIndex.lookup k = m.blockIndex.lookup k

theorem Inv.rebuildsIndex_iff {m : Blman} (h : m.Inv) :
    m.RebuildsIndex ↔ ∀ b ∈ m.blocks, b.Scannable := by
  constructor
  · rintro ⟨m', hc, -, -⟩
    obtain ⟨index, hindex, -⟩ := Option.bind_eq_some_iff.mp hc
    exact indexBlocks_scannable h.valid 0 ∅ index hindex
  · intro hscan
    obtain ⟨m', hc, hinv, hblocks⟩ := create_spec h.sound h.nonempty h.count_lt hscan
    refine ⟨m', hc, hblocks, ?_⟩
    intro k
    ext n
    rw [h.index, hinv.index, hblocks]

/-- **The scans stop behind the records of a block** that no call has written over the RDFs of,
and the index of a live manager is rebuilt from its blocks, exactly when no block has 409
records. -/
theorem scans_stop_iff (sh : Shared) :
    (∀ b : Block, Block.builder.Reach Block.Inside b → (b.ScansStop ↔ b.records.length < 409))
      ∧ ∀ m : Blman, Live sh m →
        (m.RebuildsIndex ↔ ∀ b ∈ m.blocks, b.records.length < 409) :=
  ⟨fun _ h => (Block.builder_valid h).scansStop_iff, fun _ h => h.inv.rebuildsIndex_iff⟩

/-- No limit, and no record large enough to be compressed. -/
def unlimited : WriteCfg := ⟨256, 5, false, fun _ => 0, 0⟩

/-- Small records written one after another. -/
def writeAll (m : Blman) : List (UInt64 × List UInt8) → Option Blman
  | [] => some m
  | (recordkey, record) :: rest => do
    let (_, m) ← m.writeRecord Shared.plain unlimited recordkey record
    writeAll m rest

theorem Live.writeAll {writes : List (UInt64 × List UInt8)} : ∀ {m m' : Blman},
    Live Shared.plain m → m.writeAll writes = some m' → Live Shared.plain m' := by
  induction writes with
  | nil =>
    intro m m' hm hw
    cases hw
    exact hm
  | cons write writes ih =>
    intro m m' hm hw
    obtain ⟨⟨st, m1⟩, hone, hw⟩ := Option.bind_eq_some_iff.mp hw
    exact ih (.write m m1 _ _ _ st hm hone) hw

/-- A new block. -/
theorem reach_initBlock : Block.builder.Reach Block.Inside zeroBlock.initBlock := .init _ ⟨_, rfl⟩

/-- A block of three records of which one is updated to another length and one is deleted, and a
manager of two records of which one has been updated. -/
theorem scans_stop_iff_edited :
    (∃ b : Block, b.records = [⟨3, [5, 6]⟩, ⟨2, [7, 8, 9]⟩] ∧ b.ScansStop)
      ∧ ∃ m : Blman, m.blockIndex.count = 2 ∧ m.RebuildsIndex := by
  obtain ⟨b1, -, hr1, hb1⟩ := Block.initBlock_holds.reach_write reach_initBlock 1 [1, 2, 3]
    (by decide) (by decide)
  obtain ⟨b2, -, hr2, hb2⟩ := hb1.reach_write hr1 2 [4] (by decide) (by decide)
  obtain ⟨b3, -, hr3, hb3⟩ := hb2.reach_write hr2 3 [5, 6] (by decide) (by decide)
  obtain ⟨b4, hr4, hb4⟩ := Block.Holds.reach_update [⟨1, [1, 2, 3]⟩] [⟨3, [5, 6]⟩] ⟨2, [4]⟩ hb3 hr3
    [7, 8, 9] (by decide) (by decide)
  obtain ⟨b5, hr5, hb5⟩ := Block.Holds.reach_delete [] [⟨3, [5, 6]⟩, ⟨2, [7, 8, 9]⟩] ⟨1, [1, 2, 3]⟩
    hb4 hr4
  have hrecs : b5.records = [⟨3, [5, 6]⟩, ⟨2, [7, 8, 9]⟩] := hb5.records_eq
  have hwrites : ((create none).bind fun m => m.writeAll
      [(1, [1, 2, 3]), (2, [4]), (2, [7])]).any
      (fun m => decide (m.blockIndex.count = 2 ∧ ∀ b ∈ m.blocks, b.records.length < 409))
      = true := by
    decide +kernel
  obtain ⟨m, hm, hcheck⟩ := (Option.any_eq_true _ _).mp hwrites
  obtain ⟨m0, hc, hall⟩ := Option.bind_eq_some_iff.mp hm
  have hlive : Live Shared.plain m := (Live.new m0 hc).writeAll hall
  obtain ⟨hcount, hscan⟩ := of_decide_eq_true hcheck
  refine ⟨⟨b5, hrecs, ((scans_stop_iff Shared.plain).1 b5 hr5).mpr ?_⟩,
    m, hcount, ((scans_stop_iff Shared.plain).2 m hlive).mpr hscan⟩
  rw [hrecs]
  decide

/-- Two records fill a block. The 25 zeros of a third key, which is not there, go over the RDFs
and the CIDF, and the scan leaves the block. -/
theorem overrun_lost : ∃ b b', Block.builder.Reach Block.Inside b ∧ b.records.length = 2
    ∧ b.updateRecord 3 (List.replicate 25 0) = some (.ok, b')
    ∧ b'.getRecords Shared.plain [] = none := by
  obtain ⟨b1, hw1, hr1, hb1⟩ := Block.initBlock_holds.reach_write reach_initBlock 1
    (List.replicate 4046 0) (by decide) (by decide +kernel)
  obtain ⟨b2, hw2, hr2, hb2⟩ := hb1.reach_write hr1 2 (List.replicate 25 0) (by decide)
    (by decide +kernel)
  have hrun : ((zeroBlock.initBlock.writeRecord 1 (List.replicate 4046 0)).bind fun p =>
      (p.2.writeRecord 2 (List.replicate 25 0)).bind fun p =>
        p.2.updateRecord 3 (List.replicate 25 0)).any
      (fun p => decide (p.1 = .ok ∧ p.2.endOfRDFArea = 0)) = true := by
    decide +kernel
  rw [hw1, Option.bind_some, hw2, Option.bind_some] at hrun
  obtain ⟨⟨status, b'⟩, hup, hcheck⟩ := (Option.any_eq_true _ _).mp hrun
  obtain ⟨hok, hend⟩ := of_decide_eq_true hcheck
  cases hok
  refine ⟨b2, b', hr2, by rw [hb2.records_eq]; rfl, hup, ?_⟩
  have hzero : u16 (b'.getCIDF.m_location + b'.getCIDF.m_amoutOfFreeSpace) = 0 := hend
  rw [Block.getRecords, hzero]
  exact Block.getRecordsLoop_zero Shared.plain b' BLOCK_SIZE _ _ _

/-! ## A full block -/

/-- A new block with `n` empty records, of the keys 0, 1, 2 and so on. -/
def emptyRecords : ℕ → Option Block
  | 0 => some zeroBlock.initBlock
  | n + 1 => do
    let (_, b) ← (← emptyRecords n).writeRecord (UInt64.ofNat n) []
    return b

theorem emptyRecords_spec (n : ℕ) (hn : n ≤ 409) : ∃ b, emptyRecords n = some b
    ∧ Block.builder.Reach Block.Inside b
    ∧ b.Holds ((List.range n).map fun i => ⟨UInt64.ofNat i, []⟩) := by
  induction n with
  | zero => exact ⟨_, rfl, reach_initBlock, Block.initBlock_holds⟩
  | succ n ih =>
    obtain ⟨b, hb, hbuilt, hh⟩ := ih (by omega)
    have hnew : UInt64.ofNat n ∉ keys ((List.range n).map fun i => ⟨UInt64.ofNat i, []⟩) := by
      rw [keys, List.map_map, List.mem_map]
      rintro ⟨i, hi, heq⟩
      have hlt := List.mem_range.mp hi
      have hnat := congrArg UInt64.toNat heq
      rw [Function.comp_apply, UInt64.toNat_ofNat', UInt64.toNat_ofNat'] at hnat
      omega
    have hdata : ∀ l : List ℕ, dataArea (l.map fun i => ⟨UInt64.ofNat i, []⟩) = [] := by
      intro l
      induction l with
      | nil => rfl
      | cons i l ih => rw [List.map_cons, dataArea_cons, ih, List.append_nil]
    have hfit : (dataArea ((List.range n).map fun i => (⟨UInt64.ofNat i, []⟩ : Record))).length
        + ([] : List UInt8).length
        + sizeofRDF * (((List.range n).map fun i => (⟨UInt64.ofNat i, []⟩ : Record)).length + 1)
        ≤ CIDFOffset := by
      rw [hdata, List.length_map, List.length_range]
      simp only [List.length_nil, sizeofRDF, CIDFOffset, BLOCK_SIZE, sizeofCIDF]
      omega
    obtain ⟨b', hw, hreach, hh'⟩ := hh.reach_write hbuilt (UInt64.ofNat n) [] hnew hfit
    refine ⟨b', ?_, hreach, ?_⟩
    · rw [emptyRecords, hb, Option.bind_eq_bind, Option.bind_some, hw]
      rfl
    · rw [List.range_succ, List.map_append]
      exact hh'

/-- The scans of a block of 409 empty records leave it. -/
theorem scans_leave_full_block : ∃ b, emptyRecords 409 = some b
    ∧ Block.builder.Reach Block.Inside b ∧ ¬ b.ScansStop
    ∧ b.containsKey 409 = none ∧ b.getRecords Shared.plain [] = none
    ∧ create (some [b]) = none := by
  obtain ⟨b, hb, hbuilt, hh⟩ := emptyRecords_spec 409 (Nat.le_refl _)
  have hlen : ¬ b.Scannable := by
    rw [Block.Scannable, hh.records_eq, List.length_map, List.length_range]
    decide
  have hlost := hh.valid.scan_lost hlen Shared.plain BLOCK_SIZE []
  have hindex := Block.Valid.scansStop_iff hh.valid
  refine ⟨b, hb, hbuilt, fun h => hlen (hindex.mp h), ?_, hlost, ?_⟩
  · obtain ⟨free, flags, hs⟩ := hh.shape
    rw [Block.containsKey_absent hs, if_neg]
    · rw [List.length_map, List.length_range]
      decide
    · intro r hr
      obtain ⟨i, hi, rfl⟩ := List.mem_map.mp hr
      have hlt := List.mem_range.mp hi
      intro heq
      have hnat := congrArg UInt64.toNat heq
      rw [UInt64.toNat_ofNat'] at hnat
      have h409 : (409 : UInt64).toNat = 409 := rfl
      omega
  · rw [create, indexBlocks, indexBlock_spec hh.valid, if_neg hlen]
    rfl

end Blman

end TransDB
