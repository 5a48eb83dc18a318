/-
`ClientSocketWorkerTask.cpp` and `PythonInterface.cpp`: the requests that write.

A record comes with the length of what it came in, a `size_t` for a packet and an
`int` for a Python string, and is passed on with a length in a `uint16`. The size
check is two layers below, in `blman_write_record`, and looks at that `uint16`.
`HandleWriteDataNum` writes many records; its loop follows the lengths it finds in
the data.
-/
import TransDB.StorageOps
import TransDB.BlockManagerRoom
import TransDB.BlockManagerDefrag
import TransDB.LRUCache

set_option autoImplicit false

namespace TransDB

open ByteList

/-! ## The handlers -/

/-- The response to `C_MSG_WRITE_DATA`. -/
structure WriteDataResponse where
  token : UInt32
  flags : UInt32
  X : UInt64
  Y : UInt64
  writeStatus : WriteStatus

namespace ClientSocketWorkerTask

variable (sh : Shared)

/-- `ClientSocketWorkerTask::HandleWriteData` -/
def HandleWriteData (cfg : WriteCfg) (cfgs : ℕ → WriteCfg) (m_rStorage : Storage)
    (m_pLRUCache : LRUCache) (m_pData : List UInt8) :
    Option (WriteDataResponse × Storage × LRUCache) := do
  --read data from packet
  let (token, rest) := Blman.bbuffRead sh m_pData 4
  let (flags, rest) := Blman.bbuffRead sh rest 4
  let (x, rest) := Blman.bbuffRead sh rest 8
  let (y, pRecord) := Blman.bbuffRead sh rest 8
  let X := UInt64.ofNat (ofLE x)
  let Y := UInt64.ofNat (ofLE y)
  let recordSize := u16 pRecord.length
  --write data with result
  let (writeStatus, m_rStorage, m_pLRUCache) ←
    m_rStorage.WriteData sh cfg cfgs m_pLRUCache X Y (pRecord.take recordSize)
  --send back data
  return (⟨UInt32.ofNat (ofLE token), UInt32.ofNat (ofLE flags), X, Y, writeStatus⟩, m_rStorage,
    m_pLRUCache)

/-- The loop of `ClientSocketWorkerTask::HandleWriteDataNum` over what is left of its data,
with the statuses it combines. A key, a size or a record read behind the end of the data is
`none`. -/
def writeDataNumLoop (cfg : ℕ → WriteCfg) (cfgs : ℕ → ℕ → WriteCfg) (X : UInt64) :
    ℕ → ℕ → List UInt8 → Storage → LRUCache → Option (List WriteStatus × Storage × LRUCache)
  | 0, _, pData, m_rStorage, m_pLRUCache =>
    if pData = [] then some ([], m_rStorage, m_pLRUCache) else none
  | fuel + 1, i, pData, m_rStorage, m_pLRUCache =>
    if pData = [] then some ([], m_rStorage, m_pLRUCache)
    else do
      --get key
      let recordKey ← load pData 0 8
      --get record size
      let recordSize ← load pData 8 2
      --now rpos is pointing to begin of data
      let pRecord ← load pData 10 (ofLE recordSize)
      let (writeStatus, m_rStorage, m_pLRUCache) ←
        m_rStorage.WriteData sh (cfg i) (cfgs i) m_pLRUCache X (UInt64.ofNat (ofLE recordKey))
          pRecord
      let (statuses, m_rStorage, m_pLRUCache) ←
        writeDataNumLoop cfg cfgs X fuel (i + 1) (pData.drop (10 + ofLE recordSize)) m_rStorage
          m_pLRUCache
      return (writeStatus :: statuses, m_rStorage, m_pLRUCache)

end ClientSocketWorkerTask

/-- `TransDB_WriteData` of `PythonInterface.cpp`. The size is parsed into an `int`; a string it
cannot count is an exception, and nothing is written (`none`). -/
def TransDB_WriteData (sh : Shared) (cfg : WriteCfg) (cfgs : ℕ → WriteCfg) (m_pStorage : Storage)
    (m_pLRUCache : LRUCache) (x y : UInt64) (pData : List UInt8) :
    Option (Option WriteStatus × Storage × LRUCache) :=
  if pData.length < 2 ^ 31 then do
    let recordSize := u16 pData.length
    let (status, m_pStorage, m_pLRUCache) ←
      m_pStorage.WriteData sh cfg cfgs m_pLRUCache x y (pData.take recordSize)
    return (some status, m_pStorage, m_pLRUCache)
  else some (none, m_pStorage, m_pLRUCache)

/-! ## One write of the store -/

namespace Storage

variable {sh : Shared} {cfg : WriteCfg} {cfgs : ℕ → WriteCfg} {st st' : Storage}
  {lru lru' : LRUCache} {x y : UInt64} {pRecord : List UInt8} {status : WriteStatus}

/-- The status of `WriteData` is that of a `blman_write_record`. -/
theorem WriteData_wrote (h : st.WriteData sh cfg cfgs lru x y pRecord = some (status, st', lru')) :
    ∃ m m' : Blman, m.writeRecord sh cfg y pRecord = some (status, m') := by
  obtain ⟨lru1, -, h⟩ := Option.bind_eq_some_iff.mp h
  cases hx : st.m_dataIndexes.lookup x with
  | none =>
    rw [hx] at h
    obtain ⟨⟨status1, st1⟩, hnew, h⟩ := Option.bind_eq_some_iff.mp h
    cases h
    simp only [writeNew, Option.bind_eq_bind, Option.bind_eq_some_iff] at hnew
    obtain ⟨m, -, ⟨status2, m'⟩, hw, hnew⟩ := hnew
    cases hnew
    exact ⟨m, m', hw⟩
  | some r =>
    rw [hx] at h
    obtain ⟨⟨st1, r1, m⟩, -, h⟩ := Option.bind_eq_some_iff.mp h
    obtain ⟨⟨status2, m'⟩, hw, h⟩ := Option.bind_eq_some_iff.mp h
    obtain ⟨st2, -, h⟩ := Option.bind_eq_some_iff.mp h
    cases h
    exact ⟨m, m', hw⟩

/-- A write reports a record as too big exactly when the length it is given is. -/
theorem WriteData_tooBig_iff
    (h : st.WriteData sh cfg cfgs lru x y pRecord = some (status, st', lru')) :
    status.failRecordTooBig = true ↔ MAX_RECORD_SIZE < pRecord.length := by
  obtain ⟨m, m', hw⟩ := WriteData_wrote h
  rcases Blman.writeRecord_status hw with ⟨hbig, hst, -⟩ | ⟨hsmall, hst, -⟩
  · exact iff_of_true hst hbig
  · exact iff_of_false (by rw [hst]; decide) (Nat.not_lt.mpr hsmall)

/-- A write to `x` goes to `m`: the manager it has in memory, or that of a new X. -/
def WritesTo (st : Storage) (x : UInt64) (m : Blman) : Prop :=
  st.m_dataIndexes.lookup x = none ∧ Blman.create none = some m
    ∨ ∃ r, st.m_dataIndexes.lookup x = some r ∧ r.m_pBlockManager = some m

/-- With the record limit off a write asks for no defragmentation. -/
theorem needDefrag_of_off {m m' : Blman} (hinv : m.Inv) (hoff : cfg.EnableRecordLimit = false)
    (hw : m.writeRecord sh cfg y pRecord = some (status, m')) : status.needDefrag = false := by
  have hreach : ∀ t, Blman.limitReached cfg t = false := fun t => by
    rw [Blman.limitReached, hoff, Bool.false_and]
  cases Blman.writeRecord_cases hinv hw with
  | tooBig => rfl
  | updated => rfl
  | refused _ _ _ _ _ _ hold =>
    rw [Blman.refusedBy, hreach, Bool.false_and] at hold
    cases hold
  | stored _ _ _ _ _ _ _ hdefrag =>
    rw [Bool.eq_false_iff]
    intro hd
    have hlim := (hdefrag hd).1
    rw [hreach] at hlim
    cases hlim

/-- With the record limit off `WriteData` is a `blman_write_record` on the manager of its X,
which is in memory afterwards. -/
theorem WriteData_manager {m : Blman} (hst : st.WritesTo x m) (hinv : m.Inv)
    (hoff : cfg.EnableRecordLimit = false) {l : List UInt64} (hlru : lru.IsList l) :
    m.writeRecord sh cfg y pRecord = none
        ∧ st.WriteData sh cfg cfgs lru x y pRecord = none
      ∨ ∃ status m' st' lru' r l', m.writeRecord sh cfg y pRecord = some (status, m')
        ∧ st.WriteData sh cfg cfgs lru x y pRecord = some (status, st', lru')
        ∧ st'.m_dataIndexes.lookup x = some r ∧ r.m_pBlockManager = some m'
        ∧ lru'.IsList l' := by
  obtain ⟨lru', hput, hlru'⟩ := hlru.put x
  unfold WriteData
  rw [hput]
  simp only [Option.bind_eq_bind, Option.bind_some]
  rcases hst with ⟨hx, hc⟩ | ⟨r, hx, hm⟩
  · rw [hx]
    simp only [writeNew, hc, Option.bind_eq_bind, Option.bind_some]
    cases hw : m.writeRecord sh cfg y pRecord with
    | none => exact Or.inl ⟨rfl, rfl⟩
    | some p =>
      obtain ⟨status, m'⟩ := p
      exact Or.inr ⟨status, m', _, lru', _, _, rfl, rfl, AList.lookup_insert _, rfl, hlru'⟩
  · rw [hx]
    simp only [CheckBlockManager, hm, Option.bind_some]
    cases hw : m.writeRecord sh cfg y pRecord with
    | none => exact Or.inl ⟨rfl, rfl⟩
    | some p =>
      obtain ⟨status, m'⟩ := p
      have hdef := needDefrag_of_off hinv hoff hw
      simp only [Option.bind_some, afterWrite, hdef, Bool.false_eq_true, if_false]
      refine Or.inr ⟨status, m', ?_⟩
      split
      · exact ⟨_, lru', _, _, rfl, rfl, AList.lookup_insert _, rfl, hlru'⟩
      · split
        · exact ⟨_, lru', _, _, rfl, rfl, AList.lookup_insert _, rfl, hlru'⟩
        · split
          · exact ⟨_, lru', _, _, rfl, rfl, AList.lookup_insert _, rfl, hlru'⟩
          · exact ⟨_, lru', _, _, rfl, rfl, AList.lookup_insert _, rfl, hlru'⟩

end Storage

/-! ## Whole or refused -/

/-- What is written of a request for `data`. -/
def handed (data : List UInt8) : List UInt8 := data.take (u16 data.length)

/-- What a request for `data` should come to, if `status` is reported. -/
def WholeOrRefused (data : List UInt8) (status : WriteStatus) : Prop :=
  (handed data = data ∨ status.failRecordTooBig = true)
    ∧ (MAX_RECORD_SIZE < data.length → status.failRecordTooBig = true)

/-- The length is not taken for that of a record. -/
def SizeKept (n : ℕ) : Prop := n < 65536 ∨ MAX_RECORD_SIZE < n % 65536

theorem u16_length (data : List UInt8) : u16 data.length = data.length % 65536 := by
  rw [u16]
  omega

theorem length_handed (data : List UInt8) : (handed data).length = data.length % 65536 := by
  rw [handed, List.length_take, u16_length]
  exact Nat.min_eq_left (Nat.mod_le _ _)

/-- A cut to 16 bits goes unnoticed exactly when the rest looks like the length of a record. -/
theorem wholeOrRefused_iff {data : List UInt8} {status : WriteStatus}
    (hst : status.failRecordTooBig = true ↔ MAX_RECORD_SIZE < (handed data).length) :
    WholeOrRefused data status ↔ SizeKept data.length := by
  have hmax : MAX_RECORD_SIZE = 4081 := rfl
  have hlen := length_handed data
  rw [hlen] at hst
  have hwhole : handed data = data ↔ data.length < 65536 := by
    constructor
    · intro heq
      rw [heq] at hlen
      omega
    · intro hlt
      exact List.take_of_length_le (by rw [u16_length]; omega)
  rw [WholeOrRefused, SizeKept, hwhole, hst]
  omega

section Requests

variable {sh : Shared} {cfg : WriteCfg} {cfgs : ℕ → WriteCfg} {st st' : Storage}
  {lru lru' : LRUCache}

theorem bbuffRead_of_le {rest : List UInt8} {n : ℕ} (h : n ≤ rest.length) :
    Blman.bbuffRead sh rest n = (rest.take n, rest.drop n) := if_pos h

/-- The handler passes on what follows the header, cut to 16 bits of length. -/
theorem HandleWriteData_eq {header data : List UInt8} (hlen : header.length = 24) :
    ∃ token flags X Y,
      ClientSocketWorkerTask.HandleWriteData sh cfg cfgs st lru (header ++ data)
        = (st.WriteData sh cfg cfgs lru X Y (handed data)).map fun p =>
          (⟨token, flags, X, Y, p.1⟩, p.2) := by
  have hrest : ((((header ++ data).drop 4).drop 4).drop 8).drop 8 = data := by
    simp only [List.drop_drop]
    exact List.drop_left' hlen
  have hall : (header ++ data).length = 24 + data.length := by rw [List.length_append, hlen]
  refine ⟨UInt32.ofNat (ofLE ((header ++ data).take 4)),
    UInt32.ofNat (ofLE (((header ++ data).drop 4).take 4)),
    UInt64.ofNat (ofLE ((((header ++ data).drop 4).drop 4).take 8)),
    UInt64.ofNat (ofLE (((((header ++ data).drop 4).drop 4).drop 8).take 8)), ?_⟩
  have h1 : Blman.bbuffRead sh (header ++ data) 4 = _ := bbuffRead_of_le (by omega)
  have h2 : Blman.bbuffRead sh ((header ++ data).drop 4) 4 = _ :=
    bbuffRead_of_le (by rw [List.length_drop]; omega)
  have h3 : Blman.bbuffRead sh (((header ++ data).drop 4).drop 4) 8 = _ :=
    bbuffRead_of_le (by simp only [List.length_drop]; omega)
  have h4 : Blman.bbuffRead sh ((((header ++ data).drop 4).drop 4).drop 8) 8 = _ :=
    bbuffRead_of_le (by simp only [List.length_drop]; omega)
  simp only [ClientSocketWorkerTask.HandleWriteData, h1, h2, h3, h4, hrest, ← handed.eq_1]
  cases st.WriteData sh cfg cfgs lru _ _ (handed data) with
  | none => rfl
  | some p => rfl

/-- A packet is stored whole or refused unless its length is cut to that of a record; so is a
Python string, if it has a length at all. -/
theorem write_whole_iff (sh : Shared) (cfg : WriteCfg) (cfgs : ℕ → WriteCfg) (st : Storage)
    (lru : LRUCache) :
    (∀ header data response st' lru', header.length = 24 →
        ClientSocketWorkerTask.HandleWriteData sh cfg cfgs st lru (header ++ data)
          = some (response, st', lru') →
        st.WriteData sh cfg cfgs lru response.X response.Y (handed data)
            = some (response.writeStatus, st', lru')
          ∧ (WholeOrRefused data response.writeStatus ↔ SizeKept data.length))
      ∧ ∀ x y data status st' lru',
        TransDB_WriteData sh cfg cfgs st lru x y data = some (status, st', lru') →
        (∀ s ∈ status, st.WriteData sh cfg cfgs lru x y (handed data) = some (s, st', lru'))
          ∧ ((∃ s ∈ status, WholeOrRefused data s)
            ↔ data.length < 2 ^ 31 ∧ SizeKept data.length) := by
  constructor
  · intro header data response st' lru' hlen h
    obtain ⟨token, flags, X, Y, heq⟩ := HandleWriteData_eq hlen
    rw [heq, Option.map_eq_some_iff] at h
    obtain ⟨⟨status, st1, lru1⟩, hw, h⟩ := h
    cases h
    exact ⟨hw, wholeOrRefused_iff (Storage.WriteData_tooBig_iff hw)⟩
  · intro x y data status st' lru' h
    rw [TransDB_WriteData] at h
    split at h
    case isTrue hlt =>
      obtain ⟨⟨s, st1, lru1⟩, hw, h⟩ := Option.bind_eq_some_iff.mp h
      cases h
      have hiff := wholeOrRefused_iff (Storage.WriteData_tooBig_iff hw)
      refine ⟨fun s' hs => ?_, ?_⟩
      · cases hs
        exact hw
      · simp only [Option.mem_some_iff, exists_eq_left', hlt, true_and]
        exact hiff
    case isFalse hge =>
      cases h
      refine ⟨fun s hs => absurd hs (Option.not_mem_none s), iff_of_false ?_ fun hh => hge hh.1⟩
      rintro ⟨s, hs, -⟩
      cases hs

end Requests

/-- A store without files and without an X. -/
def blank : Storage where
  files := ⟨⟨fun _ => 0, 0⟩, []⟩
  trace := {}
  m_dataFileSize := 0
  m_pDataIndexDiskWriter := IndexBlock.new
  m_dataIndexes := ∅
  m_memoryUsed := 0
  m_rFreeSpace := ∅
  m_pQueue := ∅
  m_pRIDelQueue := ∅

/-- In a store without an X every small record is written. -/
theorem WriteData_blank (x y : UInt64) {pRecord : List UInt8}
    (hsize : pRecord.length ≤ MAX_RECORD_SIZE) : ∃ status st' lru',
    blank.WriteData Shared.plain Blman.defaultWriteCfg (fun _ => Blman.defaultWriteCfg)
        LRUCache.empty x y pRecord = some (status, st', lru')
      ∧ status.failRecordTooBig = false := by
  obtain ⟨m, hm, hinv, -⟩ := Blman.create_none
  have hto : blank.WritesTo x m := Or.inl ⟨AList.lookup_empty x, hm⟩
  have hoff : Blman.defaultWriteCfg.EnableRecordLimit = false := rfl
  rcases Storage.WriteData_manager hto hinv hoff LRUCache.IsList.empty with
    ⟨hnone, -⟩ | ⟨status, m', st', lru', r, l', -, hw, -⟩
  · obtain ⟨st, m', hw⟩ := hinv.exists_write hoff (by rw [Blman.create_count hm]; decide)
    rw [hnone] at hw
    cases hw
  · refine ⟨status, st', lru', hw, ?_⟩
    rw [Bool.eq_false_iff]
    exact fun hbig => Nat.not_lt.mpr hsize ((Storage.WriteData_tooBig_iff hw).mp hbig)

/-- A header and three bytes. -/
theorem write_whole_iff_three : ∃ response st' lru',
    ClientSocketWorkerTask.HandleWriteData Shared.plain Blman.defaultWriteCfg
        (fun _ => Blman.defaultWriteCfg) blank LRUCache.empty (List.replicate 24 0 ++ [1, 2, 3])
      = some (response, st', lru')
      ∧ WholeOrRefused [1, 2, 3] response.writeStatus := by
  obtain ⟨token, flags, X, Y, heq⟩ := HandleWriteData_eq (List.length_replicate : _ = 24)
  have hsize : (handed [1, 2, 3]).length ≤ MAX_RECORD_SIZE := by decide
  obtain ⟨status, st', lru', hw, -⟩ := WriteData_blank X Y hsize
  rw [hw] at heq
  have hwhole := (write_whole_iff _ _ _ _ _).1 _ _ _ _ _ List.length_replicate heq
  exact ⟨_, st', lru', heq, hwhole.2.mpr (Or.inl (by decide))⟩

/-- A Python string of 65539 bytes is stored as its first three, and so is a packet. -/
theorem write_cuts : handed (List.replicate 65539 7) = [7, 7, 7]
    ∧ (∃ status st' lru', TransDB_WriteData Shared.plain Blman.defaultWriteCfg
          (fun _ => Blman.defaultWriteCfg) blank LRUCache.empty 1 1 (List.replicate 65539 7)
        = some (some status, st', lru')
      ∧ ¬ WholeOrRefused (List.replicate 65539 7) status)
    ∧ ∃ response st' lru', ClientSocketWorkerTask.HandleWriteData Shared.plain
          Blman.defaultWriteCfg (fun _ => Blman.defaultWriteCfg) blank LRUCache.empty
          (List.replicate 24 0 ++ List.replicate 65539 7)
        = some (response, st', lru')
      ∧ ¬ WholeOrRefused (List.replicate 65539 7) response.writeStatus := by
  have hlen : (List.replicate 65539 (7 : UInt8)).length = 65539 := List.length_replicate
  have hthree : handed (List.replicate 65539 7) = [7, 7, 7] := by
    rw [handed, hlen, List.take_replicate]
    rfl
  have hnot : ∀ {status : WriteStatus}, status.failRecordTooBig = false →
      ¬ WholeOrRefused (List.replicate 65539 7) status := by
    intro status hsmall hwhole
    have hbig := hwhole.2 (by rw [hlen]; decide)
    rw [hsmall] at hbig
    cases hbig
  have hsize : (handed (List.replicate 65539 7)).length ≤ MAX_RECORD_SIZE := by
    rw [hthree]
    decide
  refine ⟨hthree, ?_, ?_⟩
  · obtain ⟨status, st', lru', hw, hsmall⟩ := WriteData_blank 1 1 hsize
    refine ⟨status, st', lru', ?_, hnot hsmall⟩
    rw [TransDB_WriteData, if_pos (by rw [hlen]; decide)]
    exact congrArg (Option.bind · _) hw
  · obtain ⟨token, flags, X, Y, heq⟩ := HandleWriteData_eq (List.length_replicate : _ = 24)
    obtain ⟨status, st', lru', hw, hsmall⟩ := WriteData_blank X Y hsize
    rw [hw] at heq
    exact ⟨_, st', lru', heq, hnot hsmall⟩

end TransDB
