/-
The requests whose body is a list.

`HandleDeleteX` and `HandleDefragmentData` take a list of keys of eight bytes,
`HandleWriteDataNum` a list of records, each with its key and its length in front. The
loops look at the position they have come to and not at the end of what they read
there, so a body that ends inside a field is read beyond its end. What lies there
belongs to whatever the memory holds.

`parse_inside_iff` is the result: the loops stay inside exactly the bodies that end
with a field.
-/
import TransDB.StorageExport

set_option autoImplicit false

namespace TransDB

open ByteList

/-! ## The memory behind a pointer -/

/-- The memory from a pointer on: the body, and what is behind it. -/
def memory (body : List UInt8) (behind : ℕ → UInt8) (i : ℕ) : UInt8 :=
  body.getD i (behind (i - body.length))

/-- `n` bytes of the memory. -/
def readAt (mem : ℕ → UInt8) (pos n : ℕ) : List UInt8 := (List.range n).map fun i => mem (pos + i)

theorem length_readAt (mem : ℕ → UInt8) (pos n : ℕ) : (readAt mem pos n).length = n := by
  rw [readAt, List.length_map, List.length_range]

/-- What is read inside the body is a slice of it. -/
theorem readAt_inside {body : List UInt8} {pos n : ℕ} (behind : ℕ → UInt8)
    (h : pos + n ≤ body.length) : readAt (memory body behind) pos n = slice body pos n := by
  refine List.ext_getElem ?_ fun i hi hi' => ?_
  · rw [length_readAt, length_slice _ _ _ h]
  · rw [length_readAt] at hi
    have hlt : pos + i < body.length := by omega
    simp only [readAt, memory, slice, List.getElem_map, List.getElem_range, List.getElem_take,
      List.getElem_drop]
    exact List.getD_eq_getElem _ _ hlt

/-! ## The loops -/

namespace ClientSocketWorkerTask

/-- A turn of the loop over the keys. -/
structure XTurn where
  rpos : ℕ
  X : UInt64
  deriving DecidableEq

/-- The loop of `HandleDeleteX` and of `HandleDefragmentData`, from `rpos` on. -/
def xTurns (pXs : ℕ → UInt8) (XSize rpos : ℕ) : List XTurn :=
  if rpos < XSize then
    ⟨rpos, UInt64.ofNat (ofLE (readAt pXs rpos 8))⟩ :: xTurns pXs XSize (rpos + 8)
  else []
termination_by XSize - rpos

/-- A turn of the loop over the records, with what it passes on. -/
structure WriteTurn where
  rpos : ℕ
  record : Record

/-- The loop of `HandleWriteDataNum`, from `rpos` on. -/
def writeTurns (pData : ℕ → UInt8) (dataSize rpos : ℕ) : List WriteTurn :=
  if rpos < dataSize then
    --get key
    let recordKey := UInt64.ofNat (ofLE (readAt pData rpos 8))
    --get record size
    let recordSize := ofLE (readAt pData (rpos + 8) 2)
    --now rpos is pointing to begin of data
    ⟨rpos, ⟨recordKey, readAt pData (rpos + 10) recordSize⟩⟩
      :: writeTurns pData dataSize (rpos + 10 + recordSize)
  else []
termination_by dataSize - rpos

/-- What a turn reads: positions and lengths. -/
def XTurn.reads (t : XTurn) : List (ℕ × ℕ) := [(t.rpos, 8)]

/-- What a turn reads, and what it passes to the storage to be read. -/
def WriteTurn.reads (t : WriteTurn) : List (ℕ × ℕ) :=
  [(t.rpos, 8), (t.rpos + 8, 2), (t.rpos + 10, t.record.data.length)]

/-! ## The handlers -/

/-- What the handlers use of the missing `shared/` code for the body of a packet. -/
structure PacketShared where
  ePF_NULL : UInt32
  ePF_COMPRESSED : UInt32
  ePF_DECOMPRESS_FAILED : UInt32
  /-- `CommonFunctions::decompressGzip`: the bytes on `Z_OK`, `none` on any other status. -/
  decompressGzip : List UInt8 → Option (List UInt8)
  /-- `CCommon_compressGzip` at a level, in the same way. -/
  compressGzip : Int → List UInt8 → Option (List UInt8)

/-- The flags of a request and its body: decompressed, if the flags say so. -/
def decompressBody (ps : PacketShared) (flags : UInt32) (pData : List UInt8) :
    UInt32 × List UInt8 :=
  if flags &&& ps.ePF_COMPRESSED ≠ 0 then
    match ps.decompressGzip pData with
    | some rBuffOut => (ps.ePF_NULL, rBuffOut)
    | none => (ps.ePF_DECOMPRESS_FAILED, pData)
  else (flags, pData)

/-- Token and flags of a response. -/
structure ListResponse where
  token : UInt32
  flags : UInt32

variable (sh : Shared) (ps : PacketShared) (behind : List UInt8 → ℕ → UInt8)

/-- A request with a list of keys, and what is done to each of them. -/
def handleXs (op : XTurn → Storage → LRUCache → Option (Storage × LRUCache)) (m_rStorage : Storage)
    (m_pLRUCache : LRUCache) (m_pData : List UInt8) :
    Option (ListResponse × Storage × LRUCache) := do
  --read data from packet
  let (token, rest) := Blman.bbuffRead sh m_pData 4
  let (flags, pXs) := Blman.bbuffRead sh rest 4
  --decompress
  let (flags, pXs) := decompressBody ps (UInt32.ofNat (ofLE flags)) pXs
  --only if decompression is ok
  let turns :=
    if flags = ps.ePF_NULL then xTurns (memory pXs (behind pXs)) pXs.length 0 else []
  let (m_rStorage, m_pLRUCache) ←
    turns.foldlM (fun s t => op t s.1 s.2) (m_rStorage, m_pLRUCache)
  --send data back
  return (⟨UInt32.ofNat (ofLE token), flags⟩, m_rStorage, m_pLRUCache)

/-- `ClientSocketWorkerTask::HandleDeleteX` -/
def HandleDeleteX : Storage → LRUCache → List UInt8 → Option (ListResponse × Storage × LRUCache) :=
  handleXs sh ps behind fun t m_rStorage m_pLRUCache => do
    let (m_rStorage, m_pLRUCache) ← m_rStorage.DeleteData sh m_pLRUCache t.X
    --erase from disk queue
    return (DiskWriter.Remove m_rStorage t.X, m_pLRUCache)

/-- `ClientSocketWorkerTask::HandleDefragmentData`; the writes of the defragmentation at a
position of the list read `cfgs` of it. -/
def HandleDefragmentData (cfgs : ℕ → ℕ → WriteCfg) :
    Storage → LRUCache → List UInt8 → Option (ListResponse × Storage × LRUCache) :=
  handleXs sh ps behind fun t m_rStorage m_pLRUCache =>
    m_rStorage.DefragmentData sh (cfgs t.rpos) m_pLRUCache t.X

/-- The response to `C_MSG_WRITE_DATA_NUM`, with the statuses it combines. -/
structure WriteDataNumResponse where
  token : UInt32
  flags : UInt32
  X : UInt64
  writeStatus : List WriteStatus

/-- `ClientSocketWorkerTask::HandleWriteDataNum` -/
def HandleWriteDataNum (cfg : ℕ → WriteCfg) (cfgs : ℕ → ℕ → WriteCfg) (m_rStorage : Storage)
    (m_pLRUCache : LRUCache) (m_pData : List UInt8) :
    Option (WriteDataNumResponse × Storage × LRUCache) := do
  --read data from packet
  let (token, rest) := Blman.bbuffRead sh m_pData 4
  let (flags, rest) := Blman.bbuffRead sh rest 4
  let (x, pData) := Blman.bbuffRead sh rest 8
  let X := UInt64.ofNat (ofLE x)
  --decompress
  let (flags, pData) := decompressBody ps (UInt32.ofNat (ofLE flags)) pData
  --only if decompression is ok
  let turns :=
    if flags = ps.ePF_NULL then writeTurns (memory pData (behind pData)) pData.length 0 else []
  let (statuses, m_rStorage, m_pLRUCache) ←
    writeItems sh cfg cfgs X 0 (turns.map WriteTurn.record) m_rStorage m_pLRUCache
  --send back data
  return (⟨UInt32.ofNat (ofLE token), flags, X, statuses⟩, m_rStorage, m_pLRUCache)

/-! ## Inside the body -/

/-- The loop over the keys reads nothing but the body, and its keys are the fields of eight
bytes from the start of the body on. -/
structure XsInside (body : List UInt8) (behind : ℕ → UInt8) : Prop where
  reads : ∀ t ∈ xTurns (memory body behind) body.length 0, ∀ r ∈ t.reads, r.1 + r.2 ≤ body.length
  fields : (xTurns (memory body behind) body.length 0).flatMap (fun t => toLE 8 t.X.toNat) <+: body

/-- The loop over the records reads and passes on nothing but the body, and its records are
the fields from the start of the body on. -/
structure RecordsInside (body : List UInt8) (behind : ℕ → UInt8) : Prop where
  reads : ∀ t ∈ writeTurns (memory body behind) body.length 0, ∀ r ∈ t.reads,
    r.1 + r.2 ≤ body.length
  fields : (writeTurns (memory body behind) body.length 0).flatMap (fun t => t.record.entry)
    <+: body

variable {body : List UInt8} {behind : ℕ → UInt8}

theorem XTurn.reads_inside {t : XTurn} {n : ℕ} :
    (∀ r ∈ t.reads, r.1 + r.2 ≤ n) ↔ t.rpos + 8 ≤ n := by
  rw [XTurn.reads, List.forall_mem_singleton]

theorem WriteTurn.reads_inside {t : WriteTurn} {n : ℕ} :
    (∀ r ∈ t.reads, r.1 + r.2 ≤ n) ↔ t.rpos + 10 + t.record.data.length ≤ n := by
  rw [WriteTurn.reads, List.forall_mem_cons, List.forall_mem_cons, List.forall_mem_singleton]
  omega

variable (behind) in
/-- Whole keys: the turns of a body that ends with one. -/
theorem xTurns_whole (n : ℕ) : ∀ {rpos : ℕ}, body.length = rpos + 8 * n →
    (∀ t ∈ xTurns (memory body behind) body.length rpos, t.rpos + 8 ≤ body.length)
      ∧ (xTurns (memory body behind) body.length rpos).flatMap (fun t => toLE 8 t.X.toNat)
        = body.drop rpos := by
  induction n with
  | zero =>
    intro rpos hlen
    rw [xTurns, if_neg (by omega), List.drop_eq_nil_of_le (by omega)]
    exact ⟨fun t ht => absurd ht List.not_mem_nil, rfl⟩
  | succ n ih =>
    intro rpos hlen
    obtain ⟨hreads, hfields⟩ := ih (show body.length = rpos + 8 + 8 * n by omega)
    have hslice : readAt (memory body behind) rpos 8 = slice body rpos 8 :=
      readAt_inside behind (by omega)
    rw [xTurns, if_pos (by omega), List.forall_mem_cons, List.flatMap_cons]
    refine ⟨⟨by dsimp only; omega, hreads⟩, ?_⟩
    rw [hfields, hslice, toLE_ofLE_key (length_slice _ _ _ (by omega)), slice, ← List.drop_drop,
      List.take_append_drop]

/-- Turns that stay inside end with the body. -/
theorem dvd_of_xTurns (n : ℕ) : ∀ {rpos : ℕ}, body.length - rpos ≤ n → rpos ≤ body.length →
    (∀ t ∈ xTurns (memory body behind) body.length rpos, t.rpos + 8 ≤ body.length) →
    8 ∣ body.length - rpos := by
  induction n with
  | zero =>
    intro rpos hn _ _
    rw [Nat.le_zero.mp hn]
    exact Nat.dvd_zero 8
  | succ n ih =>
    intro rpos hn hrpos hreads
    by_cases hmore : rpos < body.length
    · rw [xTurns, if_pos hmore, List.forall_mem_cons] at hreads
      obtain ⟨hfirst, hrest⟩ := hreads
      have hle : rpos + 8 ≤ body.length := hfirst
      have hdvd := ih (by omega) hle hrest
      omega
    · rw [show body.length - rpos = 0 by omega]
      exact Nat.dvd_zero 8

theorem xsInside_iff : XsInside body behind ↔ 8 ∣ body.length := by
  constructor
  · intro h
    have hreads := fun t ht => XTurn.reads_inside.mp (h.reads t ht)
    exact dvd_of_xTurns body.length (Nat.le_refl _) (Nat.zero_le _) hreads
  · rintro ⟨n, hn⟩
    have hlen : body.length = 0 + 8 * n := by rw [hn, Nat.zero_add]
    obtain ⟨hreads, hfields⟩ := xTurns_whole behind n hlen
    refine ⟨fun t ht => XTurn.reads_inside.mpr (hreads t ht), ?_⟩
    rw [hfields, List.drop_zero]

variable (behind) in
/-- The turn at the start of an entry reads the entry. -/
theorem turn_entry {rpos : ℕ} {e : Record} {rest : List UInt8} (hsize : e.data.length < 65536)
    (hrpos : rpos ≤ body.length) (hdrop : body.drop rpos = e.entry ++ rest) :
    writeTurns (memory body behind) body.length rpos
        = ⟨rpos, e⟩ :: writeTurns (memory body behind) body.length (rpos + 10 + e.data.length)
      ∧ rpos + 10 + e.data.length ≤ body.length
      ∧ body.drop (rpos + 10 + e.data.length) = rest := by
  have hlen := congrArg List.length hdrop
  rw [List.length_drop, List.length_append, length_entry] at hlen
  obtain ⟨hkey, hcount, hdata, hk, hn⟩ := load_entry e rest hsize
  rw [← hdrop] at hkey hcount hdata
  have hkey' := slice_of_load hkey
  have hcount' := slice_of_load hcount
  have hdata' := slice_of_load hdata
  rw [slice_drop] at hkey' hcount' hdata'
  rw [Nat.add_zero] at hkey'
  have hrest : body.drop (rpos + 10 + e.data.length) = rest := by
    rw [Nat.add_assoc, ← List.drop_drop, hdrop]
    exact List.drop_left' (length_entry e)
  refine ⟨?_, by omega, hrest⟩
  rw [writeTurns, if_pos (by omega)]
  dsimp only
  have hmemKey : readAt (memory body behind) rpos 8 = toLE 8 e.key.toNat :=
    (readAt_inside behind (by omega)).trans hkey'
  have hmemCount : readAt (memory body behind) (rpos + 8) 2 = toLE 2 e.data.length :=
    (readAt_inside behind (by omega)).trans hcount'
  have hmemData : readAt (memory body behind) (rpos + 10) e.data.length = e.data :=
    (readAt_inside behind (by omega)).trans hdata'
  rw [hmemKey, hmemCount, hk, hn, hmemData]

variable (behind) in
/-- Whole records: the turns of a body that ends with one. -/
theorem writeTurns_whole (items : List Record) (hsize : ∀ e ∈ items, e.data.length < 65536) :
    ∀ {rpos : ℕ}, rpos ≤ body.length → body.drop rpos = items.flatMap Record.entry →
    (∀ t ∈ writeTurns (memory body behind) body.length rpos,
        t.rpos + 10 + t.record.data.length ≤ body.length)
      ∧ (writeTurns (memory body behind) body.length rpos).map WriteTurn.record = items := by
  induction items with
  | nil =>
    intro rpos _ hdrop
    have hlen := List.drop_eq_nil_iff.mp hdrop
    rw [writeTurns, if_neg (Nat.not_lt.mpr hlen)]
    exact ⟨fun t ht => absurd ht List.not_mem_nil, rfl⟩
  | cons e items ih =>
    intro rpos hrpos hdrop
    obtain ⟨hesize, hsize'⟩ := List.forall_mem_cons.mp hsize
    rw [List.flatMap_cons] at hdrop
    obtain ⟨hturn, hle, hrest⟩ := turn_entry behind hesize hrpos hdrop
    obtain ⟨hreads, hrecords⟩ := ih hsize' hle hrest
    rw [hturn, List.forall_mem_cons, List.map_cons, hrecords]
    exact ⟨⟨hle, hreads⟩, rfl⟩

/-- Turns that stay inside have cut the body into records. -/
theorem entries_of_writeTurns (n : ℕ) : ∀ {rpos : ℕ}, body.length - rpos ≤ n →
    rpos ≤ body.length →
    (∀ t ∈ writeTurns (memory body behind) body.length rpos,
      t.rpos + 10 + t.record.data.length ≤ body.length) →
    ∃ items : List Record, (∀ e ∈ items, e.data.length < 65536)
      ∧ body.drop rpos = items.flatMap Record.entry := by
  induction n with
  | zero =>
    intro rpos hn _ _
    refine ⟨[], fun e he => absurd he List.not_mem_nil, ?_⟩
    rw [List.drop_eq_nil_of_le (by omega)]
    rfl
  | succ n ih =>
    intro rpos hn hrpos hreads
    by_cases hmore : rpos < body.length
    · obtain ⟨size, hsize⟩ : ∃ size, size = ofLE (readAt (memory body behind) (rpos + 8) 2) :=
        ⟨_, rfl⟩
      rw [writeTurns, if_pos hmore, ← hsize, List.forall_mem_cons] at hreads
      obtain ⟨hfirst, hrest⟩ := hreads
      rw [length_readAt] at hfirst
      have hle : rpos + 10 + size ≤ body.length := hfirst
      obtain ⟨items, hitems, hdrop⟩ := ih (by omega) hle hrest
      have hlt : size < 65536 := by
        have hbound := ofLE_lt (readAt (memory body behind) (rpos + 8) 2)
        rw [length_readAt, ← hsize] at hbound
        exact hbound
      rw [readAt_inside behind (by omega)] at hsize
      -- the entry of the first turn
      have hloadKey : load (body.drop rpos) 0 8 = some (slice body rpos 8) := by
        rw [load, if_pos (by rw [List.length_drop]; omega), slice_drop, Nat.add_zero]
      have hloadSize : load (body.drop rpos) 8 2 = some (slice body (rpos + 8) 2) := by
        rw [load, if_pos (by rw [List.length_drop]; omega), slice_drop]
      have hloadData : load (body.drop rpos) 10 (ofLE (slice body (rpos + 8) 2))
          = some (slice body (rpos + 10) size) := by
        rw [← hsize, load, if_pos (by rw [List.length_drop]; omega), slice_drop]
      obtain ⟨hentry, -, hdata⟩ := eq_entry_of_load hloadKey hloadSize hloadData
      rw [← hsize, List.drop_drop, ← Nat.add_assoc, hdrop] at hentry
      refine ⟨⟨UInt64.ofNat (ofLE (slice body rpos 8)), slice body (rpos + 10) size⟩ :: items,
        List.forall_mem_cons.mpr ⟨hdata, hitems⟩, ?_⟩
      rw [List.flatMap_cons]
      exact hentry
    · refine ⟨[], fun e he => absurd he List.not_mem_nil, ?_⟩
      rw [List.drop_eq_nil_of_le (by omega)]
      rfl

theorem recordsInside_iff : RecordsInside body behind ↔ ∃ items : List Record,
    (∀ e ∈ items, e.data.length < 65536) ∧ body = items.flatMap Record.entry := by
  constructor
  · intro h
    have hreads := fun t ht => WriteTurn.reads_inside.mp (h.reads t ht)
    exact entries_of_writeTurns body.length (Nat.le_refl _) (Nat.zero_le _) hreads
  · rintro ⟨items, hsize, hbody⟩
    obtain ⟨hreads, hrecords⟩ := writeTurns_whole behind items hsize (Nat.zero_le _) hbody
    refine ⟨fun t ht => WriteTurn.reads_inside.mpr (hreads t ht), ?_⟩
    have hfields : (writeTurns (memory body behind) body.length 0).flatMap (fun t => t.record.entry)
        = body := by
      rw [← List.flatMap_map WriteTurn.record Record.entry, hrecords, ← hbody]
    rw [hfields]

/-- The records of a body that ends with one are those of the checked loop. -/
theorem writeItems_eq_loop {sh : Shared} {cfg : ℕ → WriteCfg} {cfgs : ℕ → ℕ → WriteCfg}
    {X : UInt64} (h : RecordsInside body behind) (st : Storage) (lru : LRUCache) :
    writeItems sh cfg cfgs X 0
        ((writeTurns (memory body behind) body.length 0).map WriteTurn.record) st lru
      = writeDataNumLoop sh cfg cfgs X body.length 0 body st lru := by
  obtain ⟨items, hsize, hbody⟩ := recordsInside_iff.mp h
  obtain ⟨-, hrecords⟩ := writeTurns_whole behind items hsize (Nat.zero_le _) hbody
  have hread : readItems body.length body = some items := by
    refine (readItems_eq_some _ _ _).mpr ⟨hbody, hsize, ?_⟩
    rw [hbody]
    exact length_le_flatMap_entry items
  rcases @writeDataNumLoop_eq sh cfg cfgs X body.length 0 body st lru with
    ⟨-, hnone⟩ | ⟨items', hitems, hloop⟩
  · rw [hread] at hnone
    cases hnone
  · rw [hread] at hitems
    cases hitems
    rw [hloop, hrecords]

/-- **The lists are parsed inside their bodies** exactly when they end with a field: keys if
the length is a multiple of eight, records if the body is one record behind another. It
does not depend on what is behind the body. -/
theorem parse_inside_iff (body : List UInt8) (behind : ℕ → UInt8) :
    (XsInside body behind ↔ 8 ∣ body.length)
      ∧ (RecordsInside body behind ↔ ∃ items : List Record,
        (∀ e ∈ items, e.data.length < 65536) ∧ body = items.flatMap Record.entry) :=
  ⟨xsInside_iff, recordsInside_iff⟩

/-- Nine bytes: a key of which one byte was sent is deleted. Ten bytes that announce two more: a
record of which none was sent is written. -/
theorem parse_leaves_body :
    (¬ XsInside [1, 0, 0, 0, 0, 0, 0, 0, 2] (fun _ => 0)
        ∧ (xTurns (memory [1, 0, 0, 0, 0, 0, 0, 0, 2] fun _ => 0) 9 0).map XTurn.X = [1, 2])
      ∧ ¬ RecordsInside [1, 0, 0, 0, 0, 0, 0, 0, 2, 0] (fun _ => 7)
        ∧ (writeTurns (memory [1, 0, 0, 0, 0, 0, 0, 0, 2, 0] fun _ => 7) 10 0).map WriteTurn.record
          = [⟨1, [7, 7]⟩] := by
  have hxs : xTurns (memory [1, 0, 0, 0, 0, 0, 0, 0, 2] fun _ => 0) 9 0 = [⟨0, 1⟩, ⟨8, 2⟩] := by
    rw [xTurns, if_pos (by decide), xTurns, if_pos (by decide), xTurns, if_neg (by decide)]
    rfl
  have hrecords : writeTurns (memory [1, 0, 0, 0, 0, 0, 0, 0, 2, 0] fun _ => 7) 10 0
      = [⟨0, ⟨1, [7, 7]⟩⟩] := by
    rw [writeTurns, if_pos (by decide)]
    dsimp only
    rw [writeTurns, if_neg (by decide)]
    rfl
  refine ⟨⟨fun h => absurd (xsInside_iff.mp h) (by decide), by rw [hxs]; rfl⟩, fun h => ?_,
    by rw [hrecords]; rfl⟩
  have hmem : (⟨0, ⟨1, [7, 7]⟩⟩ : WriteTurn)
      ∈ writeTurns (memory [1, 0, 0, 0, 0, 0, 0, 0, 2, 0] fun _ => 7) 10 0 := by
    rw [hrecords]
    exact List.mem_singleton_self _
  exact absurd (WriteTurn.reads_inside.mp (h.reads _ hmem)) (by decide)

end ClientSocketWorkerTask

end TransDB
