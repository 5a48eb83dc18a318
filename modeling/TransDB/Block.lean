/-
`Block.c`: one 4096-byte block of records.

Records are packed from the start of the block, their definition fields (RDF,
10 bytes: key and length) are packed downwards from the control field (CIDF,
the last 5 bytes: free space, end of data, flags). The functions below are the
C functions statement by statement over the bytes of the block. A pointer into
the block is its offset; an access outside the block is `none`.
-/
import TransDB.Shared

set_option autoImplicit false

namespace TransDB

open ByteList

/-- block size - 4kB -/
def BLOCK_SIZE : ℕ := 4096

/-- `sizeof(CIDF)`, packed. -/
def sizeofCIDF : ℕ := 5

/-- `sizeof(RDF)`, packed. -/
def sizeofRDF : ℕ := 10

/-- CIDF offset in block -/
def CIDFOffset : ℕ := BLOCK_SIZE - sizeofCIDF

/-- max record size -/
def MAX_RECORD_SIZE : ℕ := CIDFOffset - sizeofRDF

/-- `E_BLOCK_STATUS` -/
inductive E_BLS
  | ok
  | keyNotFound
  | noSpaceForNewData
  deriving DecidableEq, Repr

/-- `eBLF_Dirty`, the one flag the server sets. -/
def eBLF_Dirty : UInt8 := 1

/-- `ControlIntervalDefinitionField` -/
structure CIDF where
  m_amoutOfFreeSpace : ℕ
  m_location : ℕ
  m_flags : UInt8
  deriving DecidableEq, Repr

/-- `RecordDefinitionField` -/
structure RDF where
  m_key : UInt64
  m_recordLength : ℕ
  deriving DecidableEq, Repr

/-- The packed bytes of a CIDF. -/
def CIDF.toBytes (c : CIDF) : List UInt8 :=
  toLE 2 c.m_amoutOfFreeSpace ++ toLE 2 c.m_location ++ [c.m_flags]

/-- The packed bytes of an RDF. -/
def RDF.toBytes (r : RDF) : List UInt8 :=
  toLE 8 r.m_key.toNat ++ toLE 2 r.m_recordLength

@[simp] theorem CIDF.length_toBytes (c : CIDF) : c.toBytes.length = sizeofCIDF := by
  simp only [CIDF.toBytes, List.length_append, length_toLE, List.length_cons, List.length_nil,
    sizeofCIDF]

@[simp] theorem RDF.length_toBytes (r : RDF) : r.toBytes.length = sizeofRDF := by
  simp only [RDF.toBytes, List.length_append, length_toLE, sizeofRDF]

/-- A block: exactly `BLOCK_SIZE` bytes. -/
@[ext] structure Block where
  bytes : List UInt8
  size_eq : bytes.length = BLOCK_SIZE
  deriving DecidableEq

namespace Block

/-! ## Reading and writing the fields -/

/-- Read the CIDF. -/
def getCIDF (b : Block) : CIDF where
  m_amoutOfFreeSpace := ofLE (slice b.bytes CIDFOffset 2)
  m_location := ofLE (slice b.bytes (CIDFOffset + 2) 2)
  m_flags := b.bytes.getD (CIDFOffset + 4) 0

/-- Write through the CIDF pointer. -/
def putCIDF (b : Block) (c : CIDF) : Block where
  bytes := patch b.bytes CIDFOffset c.toBytes
  size_eq := by
    rw [length_patch _ _ _ (by rw [b.size_eq, CIDF.length_toBytes]; decide), b.size_eq]

/-- Read an RDF at an offset. -/
def loadRDF (b : Block) (pos : ℕ) : Option RDF := do
  let bytes ← load b.bytes pos sizeofRDF
  pure { m_key := UInt64.ofNat (ofLE (bytes.take 8)), m_recordLength := ofLE (bytes.drop 8) }

/-- `memcpy(pBlock + pos, src, size)` -/
def memcpy (b : Block) (pos : ℕ) (src : List UInt8) : Option Block :=
  match h : ByteList.memcpy b.bytes pos src with
  | some l => some ⟨l, (memcpy_length h).trans b.size_eq⟩
  | none => none

/-- `memmove(pBlock + dst, pBlock + src, size)` -/
def memmove (b : Block) (dst src n : ℕ) : Option Block :=
  match h : ByteList.memmove b.bytes dst src n with
  | some l => some ⟨l, (memmove_length h).trans b.size_eq⟩
  | none => none

/-- `memmove` with a `size_t` computed by an `int` difference: nothing when it
is 0, and a size no buffer has when it is negative. -/
def memmoveInt (b : Block) (dst src : ℕ) (moveSIZE : Int) : Option Block :=
  if moveSIZE = 0 then some b
  else if moveSIZE < 0 then none
  else b.memmove dst src moveSIZE.toNat

/-- `pCIDF->m_flags & eBLF_Dirty` -/
def isDirty (b : Block) : Bool := b.getCIDF.m_flags &&& eBLF_Dirty != 0

/-- `pCIDF->m_flags &= ~eBLF_Dirty` -/
def clearDirty (b : Block) : Block :=
  let cidf := b.getCIDF
  b.putCIDF { cidf with m_flags := cidf.m_flags &&& ~~~eBLF_Dirty }

/-! ## The functions of `Block.c` -/

/-- `Block_InitBlock` -/
def initBlock (b : Block) : Block :=
  b.putCIDF { m_amoutOfFreeSpace := CIDFOffset, m_location := 0, m_flags := eBLF_Dirty }

/-- The search loop of `Block_ContainsKey`. `pRDF` keeps the RDF read last, and
it is what the loop leaves with when it runs past the RDF area. `RDFposition`
is a `uint16`, so it wraps below 0; the RDF read there is outside the block. -/
def containsKeyLoop (b : Block) (recordKey : UInt64) (endOfRDFArea : ℕ) :
    ℕ → ℕ → Option ℕ → ℕ → Option (Option ℕ × ℕ)
  | 0, _, _, _ => none
  | fuel + 1, RDFposition, pRDF, recordPosition =>
    if RDFposition < endOfRDFArea then some (pRDF, recordPosition)
    else do
      let rdf ← b.loadRDF RDFposition
      if rdf.m_key = recordKey then some (some RDFposition, recordPosition)
      else
        containsKeyLoop b recordKey endOfRDFArea fuel (u16 (RDFposition - sizeofRDF))
          (some RDFposition) (u16 (recordPosition + rdf.m_recordLength))

/-- `Block_ContainsKey`: the offset of the RDF (`none` for `NULL`) and
`*recordPosition_Out`. -/
def containsKey (b : Block) (recordKey : UInt64) : Option (Option ℕ × ℕ) :=
  let cidf := b.getCIDF
  containsKeyLoop b recordKey (u16 (cidf.m_location + cidf.m_amoutOfFreeSpace)) BLOCK_SIZE
    (CIDFOffset - sizeofRDF) none 0

/-- `Block_WriteRecord` -/
def writeRecord (b : Block) (recordKey : UInt64) (pRecord : List UInt8) :
    Option (E_BLS × Block) := do
  let cidf := b.getCIDF
  if cidf.m_amoutOfFreeSpace < pRecord.length + sizeofRDF then
    return (.noSpaceForNewData, b)
  --get position of new RDS
  let positionOfNewRDS := u16 (cidf.m_location + cidf.m_amoutOfFreeSpace - sizeofRDF)
  --write RDF
  let b ← b.memcpy positionOfNewRDS
    (RDF.toBytes { m_key := recordKey, m_recordLength := pRecord.length })
  --save data to block
  let b ← b.memcpy b.getCIDF.m_location pRecord
  --update CIDF
  let cidf := b.getCIDF
  let b := b.putCIDF
    { m_amoutOfFreeSpace := u16 (cidf.m_amoutOfFreeSpace - (pRecord.length + sizeofRDF))
      m_location := u16 (cidf.m_location + pRecord.length)
      m_flags := cidf.m_flags ||| eBLF_Dirty }
  return (.ok, b)

/-- `Block_DeleteRecordByRDF` -/
def deleteRecordByRDF (b : Block) (pRDF recordPosition : ℕ) : Option Block := do
  let rRDFCopy ← b.loadRDF pRDF
  let recordEnd := recordPosition + rRDFCopy.m_recordLength
  --move records
  let cidf := b.getCIDF
  let b ← b.memmoveInt recordPosition recordEnd (cidf.m_location - recordEnd)
  --move RDFs
  let cidf := b.getCIDF
  let endOfFreeSpace := cidf.m_location + cidf.m_amoutOfFreeSpace
  let b ← b.memmoveInt (endOfFreeSpace + sizeofRDF) endOfFreeSpace (pRDF - endOfFreeSpace)
  --update free space
  let cidf := b.getCIDF
  let b := b.putCIDF
    { m_amoutOfFreeSpace := u16 (cidf.m_amoutOfFreeSpace + (rRDFCopy.m_recordLength + sizeofRDF))
      m_location := u16 (cidf.m_location - rRDFCopy.m_recordLength)
      m_flags := cidf.m_flags ||| eBLF_Dirty }
  --clear empty space
  let cidf := b.getCIDF
  b.memcpy cidf.m_location (List.replicate cidf.m_amoutOfFreeSpace 0)

/-- `Block_DeleteRecordByKey` -/
def deleteRecordByKey (b : Block) (recordKey : UInt64) : Option (E_BLS × Block) := do
  let (pRDF, recordPosition) ← b.containsKey recordKey
  match pRDF with
  | none => return (.keyNotFound, b)
  | some pRDF =>
    let b ← b.deleteRecordByRDF pRDF recordPosition
    return (.ok, b)

/-- `Block_UpdateRecord` -/
def updateRecord (b : Block) (recordKey : UInt64) (pNewRecord : List UInt8) :
    Option (E_BLS × Block) := do
  let (pRDF, recordPosition) ← b.containsKey recordKey
  match pRDF with
  | none => return (.keyNotFound, b)
  | some pRDF =>
    let rdf ← b.loadRDF pRDF
    if pNewRecord.length = rdf.m_recordLength then
      --data has same size replace
      let b ← b.memcpy recordPosition pNewRecord
      let cidf := b.getCIDF
      return (.ok, b.putCIDF { cidf with m_flags := cidf.m_flags ||| eBLF_Dirty })
    else
      --delete old data and add new
      let b ← b.deleteRecordByRDF pRDF recordPosition
      b.writeRecord recordKey pNewRecord

variable (sh : Shared)

/-- `Block_GetRecord`, given the output buffer. A record that looks like a gzip
stream and does not decompress empties the buffer before it is appended. -/
def getRecord (b : Block) (recordKey : UInt64) (pData : List UInt8) : Option (List UInt8) := do
  let (pRDF, recordPosition) ← b.containsKey recordKey
  match pRDF with
  | none => return pData
  | some pRDF =>
    let rdf ← b.loadRDF pRDF
    let pRecordLocal ← load b.bytes recordPosition rdf.m_recordLength
    if sh.isGziped (b.bytes.drop recordPosition) then
      match sh.decompressGzip pRecordLocal with
      | some out => return pData ++ out
      | none => return pRecordLocal
    else
      return pData ++ pRecordLocal

/-- What `Block_GetRecords` appends for one record: key, size and bytes, the
bytes decompressed when they are a gzip stream. -/
def recordItem (key : UInt64) (pRecord mem : List UInt8) : List UInt8 :=
  let item (bytes : List UInt8) := toLE 8 key.toNat ++ toLE 2 bytes.length ++ bytes
  if sh.isGziped mem then
    match sh.decompressGzip pRecord with
    | some out => item out
    | none => item pRecord
  else item pRecord

/-- The scan of `Block_GetRecords`. -/
def getRecordsLoop (b : Block) (endOfRDFArea : ℕ) :
    ℕ → ℕ → ℕ → List UInt8 → Option (List UInt8)
  | 0, _, _, _ => none
  | fuel + 1, RDFPosition, recordPosition, pData =>
    if RDFPosition < endOfRDFArea then some pData
    else do
      let rdf ← b.loadRDF RDFPosition
      let pRecord ← load b.bytes recordPosition rdf.m_recordLength
      let item := recordItem sh rdf.m_key pRecord (b.bytes.drop recordPosition)
      getRecordsLoop b endOfRDFArea fuel (u16 (RDFPosition - sizeofRDF))
        (u16 (recordPosition + rdf.m_recordLength)) (pData ++ item)

/-- `Block_GetRecords` -/
def getRecords (b : Block) (pData : List UInt8) : Option (List UInt8) :=
  let cidf := b.getCIDF
  getRecordsLoop sh b (u16 (cidf.m_location + cidf.m_amoutOfFreeSpace)) BLOCK_SIZE
    (CIDFOffset - sizeofRDF) 0 pData

end Block

end TransDB
