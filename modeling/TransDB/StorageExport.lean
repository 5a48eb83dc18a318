/-
Export and import of an X.

The reply to a read with Y = 0 is the stream of all records, and
`C_MSG_WRITE_DATA_NUM` takes the same format. A parser that trusts the size fields
is exact (`readItems_eq_some`): what it reads is what was put into the stream, as
long as every size fits its field. The stream has the records as a reader is given
them, so a compressed record is longer in it than in its block, and can be longer
than a size field counts or than a record may be.
-/
import TransDB.ClientSocketWorkerTask

set_option autoImplicit false

namespace TransDB

open ByteList Record

/-! ## The parser -/

/-- What the loop of `HandleWriteDataNum` reads. -/
def readItems : ℕ → List UInt8 → Option (List Record)
  | 0, pData => if pData = [] then some [] else none
  | fuel + 1, pData =>
    if pData = [] then some []
    else do
      let recordKey ← load pData 0 8
      let recordSize ← load pData 8 2
      let pRecord ← load pData 10 (ofLE recordSize)
      let items ← readItems fuel (pData.drop (10 + ofLE recordSize))
      return ⟨UInt64.ofNat (ofLE recordKey), pRecord⟩ :: items

theorem length_entry (e : Record) : e.entry.length = 10 + e.data.length := by
  rw [Record.entry, List.length_append, List.length_append, length_toLE, length_toLE]

theorem readItems_nil (fuel : ℕ) : readItems fuel [] = some [] := by
  cases fuel with
  | zero => rw [readItems, if_pos rfl]
  | succ fuel => rw [readItems, if_pos rfl]

/-- The three loads of a turn, on an item of the stream. -/
theorem load_entry (e : Record) (rest : List UInt8) (hsize : e.data.length < 65536) :
    load (e.entry ++ rest) 0 8 = some (toLE 8 e.key.toNat)
      ∧ load (e.entry ++ rest) 8 2 = some (toLE 2 e.data.length)
      ∧ load (e.entry ++ rest) 10 e.data.length = some e.data
      ∧ UInt64.ofNat (ofLE (toLE 8 e.key.toNat)) = e.key
      ∧ ofLE (toLE 2 e.data.length) = e.data.length := by
  have h8 := length_toLE 8 e.key.toNat
  have h2 := length_toLE 2 e.data.length
  refine ⟨?_, ?_, ?_, ?_, ofLE_toLE_of_lt (by omega)⟩
  · have hsplit : e.entry ++ rest
        = [] ++ toLE 8 e.key.toNat ++ (toLE 2 e.data.length ++ e.data ++ rest) := by
      simp only [Record.entry, List.nil_append, List.append_assoc]
    rw [hsplit]
    exact load_append _ _ _ _ _ rfl h8.symm
  · have hsplit : e.entry ++ rest
        = toLE 8 e.key.toNat ++ toLE 2 e.data.length ++ (e.data ++ rest) := by
      simp only [Record.entry, List.append_assoc]
    rw [hsplit]
    exact load_append _ _ _ _ _ h8.symm h2.symm
  · rw [Record.entry]
    refine load_append _ _ _ _ _ ?_ rfl
    rw [List.length_append, h8, h2]
  · rw [ofLE_toLE_of_lt e.key.toNat_lt, UInt64.ofNat_toNat]

theorem readItems_entry (fuel : ℕ) (e : Record) (rest : List UInt8)
    (hsize : e.data.length < 65536) :
    readItems (fuel + 1) (e.entry ++ rest) = (readItems fuel rest).map (e :: ·) := by
  obtain ⟨hkey, hlen, hdata, hk, hn⟩ := load_entry e rest hsize
  have hne : e.entry ++ rest ≠ [] := by
    intro hnil
    have hl := congrArg List.length hnil
    rw [List.length_append, length_entry, List.length_nil] at hl
    omega
  have hdrop : (e.entry ++ rest).drop (10 + e.data.length) = rest :=
    List.drop_left' (length_entry e)
  rw [readItems, if_neg hne]
  simp only [hkey, hlen, hn, hdata, hk, hdrop, Option.bind_eq_bind, Option.bind_some]
  cases readItems fuel rest with
  | none => rfl
  | some items => rfl

/-- Three loads that succeed have cut the item off the data. -/
theorem eq_entry_of_load {pData recordKey recordSize pRecord : List UInt8}
    (hkey : load pData 0 8 = some recordKey) (hlen : load pData 8 2 = some recordSize)
    (hdata : load pData 10 (ofLE recordSize) = some pRecord) :
    pData = Record.entry ⟨UInt64.ofNat (ofLE recordKey), pRecord⟩
        ++ pData.drop (10 + ofLE recordSize)
      ∧ pRecord.length = ofLE recordSize ∧ pRecord.length < 65536 := by
  have hget : ∀ {pos n : ℕ} {bytes : List UInt8}, load pData pos n = some bytes →
      pData.drop pos = bytes ++ pData.drop (pos + n) ∧ bytes.length = n := by
    intro pos n bytes h
    rw [load] at h
    split at h
    case isTrue hle =>
      cases h
      refine ⟨?_, ?_⟩
      · rw [slice, ← List.drop_drop, List.take_append_drop]
      · rw [slice, List.length_take, List.length_drop]
        omega
    case isFalse => cases h
  obtain ⟨hk, hk8⟩ := hget hkey
  obtain ⟨hs, hs2⟩ := hget hlen
  obtain ⟨hd, hdl⟩ := hget hdata
  have hkey' : toLE 8 (UInt64.ofNat (ofLE recordKey)).toNat = recordKey := toLE_ofLE_key hk8
  have hlen' : toLE 2 pRecord.length = recordSize := by
    rw [hdl, ← hs2, toLE_ofLE]
  have hlt : ofLE recordSize < 65536 := by
    rw [← hlen', ofLE_toLE]
    exact Nat.mod_lt _ (by decide)
  refine ⟨?_, hdl, hdl ▸ hlt⟩
  rw [Record.entry, hkey', hlen', List.append_assoc, List.append_assoc, ← hd, ← hs]
  exact hk

/-- **The parser is exact**: it reads the items of a stream of items and nothing else. -/
theorem readItems_eq_some (fuel : ℕ) : ∀ (pData : List UInt8) (items : List Record),
    readItems fuel pData = some items ↔ pData = items.flatMap Record.entry
      ∧ (∀ e ∈ items, e.data.length < 65536) ∧ items.length ≤ fuel := by
  induction fuel with
  | zero =>
    intro pData items
    rw [readItems]
    constructor
    · intro h
      split at h
      case isTrue hnil =>
        cases h
        exact ⟨hnil, fun e he => absurd he List.not_mem_nil, Nat.le_refl 0⟩
      case isFalse => cases h
    · rintro ⟨hdata, -, hlen⟩
      have hnil : items = [] := List.eq_nil_of_length_eq_zero (Nat.le_zero.mp hlen)
      rw [hdata, hnil]
      rfl
  | succ fuel ih =>
    intro pData items
    constructor
    · intro h
      rw [readItems] at h
      split at h
      case isTrue hnil =>
        cases h
        exact ⟨hnil, fun e he => absurd he List.not_mem_nil, Nat.zero_le _⟩
      case isFalse =>
        simp only [Option.bind_eq_bind, Option.bind_eq_some_iff] at h
        obtain ⟨recordKey, hkey, recordSize, hlen, pRecord, hdata, rest, hrest, h⟩ := h
        cases h
        obtain ⟨heq, -, hlt⟩ := eq_entry_of_load hkey hlen hdata
        obtain ⟨hd, hsmall, hle⟩ := (ih _ _).mp hrest
        refine ⟨?_, ?_, ?_⟩
        · rw [List.flatMap_cons, ← hd]
          exact heq
        · exact List.forall_mem_cons.mpr ⟨hlt, hsmall⟩
        · rw [List.length_cons]
          omega
    · rintro ⟨hdata, hsmall, hlen⟩
      cases items with
      | nil =>
        rw [hdata]
        exact readItems_nil _
      | cons e items =>
        rw [List.forall_mem_cons] at hsmall
        rw [List.length_cons] at hlen
        rw [hdata, List.flatMap_cons, readItems_entry _ _ _ hsmall.1,
          (ih _ items).mpr ⟨rfl, hsmall.2, by omega⟩]
        rfl

theorem length_le_flatMap_entry (items : List Record) :
    items.length ≤ (items.flatMap Record.entry).length := by
  induction items with
  | nil => exact Nat.le_refl 0
  | cons e items ih =>
    rw [List.flatMap_cons, List.length_append, List.length_cons, length_entry]
    omega

namespace Blman

variable {sh : Shared} {m : Blman}

/-- The stream of an X is parsed into one item for each record, with the bytes a reader of
the record is given. -/
def Exported (sh : Shared) (m : Blman) : Prop :=
  ∃ stream items, m.readRecords sh [] = some stream
    ∧ readItems stream.length stream = some items
    ∧ (keys items).Nodup ∧ (∀ k, k ∈ keys items ↔ k ∈ m.blockIndex)
    ∧ ∀ e ∈ items, m.readRecord sh e.key [] = some e.data

/-- The stream there is, if the scans stop and every size can be written. -/
theorem Inv.readItems_expanded (hz : GzipOk sh) (h : m.Inv) (hscan : ∀ b ∈ m.blocks, b.Scannable)
    (hsize : ∀ e ∈ m.expanded sh, e.data.length < 65536) :
    m.readRecords sh [] = some ((m.expanded sh).flatMap Record.entry)
      ∧ readItems ((m.expanded sh).flatMap Record.entry).length
          ((m.expanded sh).flatMap Record.entry) = some (m.expanded sh) := by
  refine ⟨by rw [h.readRecords_eq hz, if_pos hscan], ?_⟩
  exact (readItems_eq_some _ _ _).mpr ⟨rfl, hsize, length_le_flatMap_entry _⟩

theorem Inv.exported_iff (hz : GzipOk sh) (h : m.Inv) :
    Exported sh m ↔ (∀ b ∈ m.blocks, b.Scannable) ∧ ∀ e ∈ m.expanded sh, e.data.length < 65536 := by
  constructor
  · rintro ⟨stream, items, hstream, hitems, -, hkeys, hreads⟩
    refine ⟨?_, fun e he => ?_⟩
    · rw [h.readRecords_eq hz] at hstream
      split at hstream
      case isTrue hscan => exact hscan
      case isFalse => cases hstream
    · have hmem : e.key ∈ keys items := by
        rw [hkeys, h.mem_index_iff sh]
        exact List.mem_map_of_mem he
      obtain ⟨e', he', hkey⟩ := List.mem_map.mp hmem
      have hread := hreads e' he'
      rw [hkey, h.read_expanded hz he] at hread
      rw [Option.some.inj hread]
      exact ((readItems_eq_some _ _ _).mp hitems).2.1 e' he'
  · rintro ⟨hscan, hsize⟩
    obtain ⟨hstream, hitems⟩ := h.readItems_expanded hz hscan hsize
    refine ⟨_, _, hstream, hitems, ?_, fun k => (h.mem_index_iff sh).symm, fun e he =>
      h.read_expanded hz he⟩
    rw [keys_expanded]
    exact h.allKeys_nodup

end Blman

/-! ## The writes -/

section Writes

variable {sh : Shared} {cfg : ℕ → WriteCfg} {cfgs : ℕ → ℕ → WriteCfg} {X : UInt64}

/-- What the loop of `HandleWriteDataNum` writes of a list of items. -/
def writeItems (sh : Shared) (cfg : ℕ → WriteCfg) (cfgs : ℕ → ℕ → WriteCfg) (X : UInt64) :
    ℕ → List Record → Storage → LRUCache → Option (List WriteStatus × Storage × LRUCache)
  | _, [], st, lru => some ([], st, lru)
  | i, e :: es, st, lru => do
    let (status, st, lru) ← st.WriteData sh (cfg i) (cfgs i) lru X e.key e.data
    let (statuses, st, lru) ← writeItems sh cfg cfgs X (i + 1) es st lru
    return (status :: statuses, st, lru)

/-- The loop writes what it reads. -/
theorem writeDataNumLoop_eq (fuel : ℕ) : ∀ (i : ℕ) (pData : List UInt8) (st : Storage)
    (lru : LRUCache),
    ClientSocketWorkerTask.writeDataNumLoop sh cfg cfgs X fuel i pData st lru = none
        ∧ readItems fuel pData = none
      ∨ ∃ items, readItems fuel pData = some items
        ∧ ClientSocketWorkerTask.writeDataNumLoop sh cfg cfgs X fuel i pData st lru
          = writeItems sh cfg cfgs X i items st lru := by
  induction fuel with
  | zero =>
    intro i pData st lru
    rw [ClientSocketWorkerTask.writeDataNumLoop, readItems]
    by_cases hnil : pData = []
    · rw [if_pos hnil, if_pos hnil]
      exact Or.inr ⟨[], rfl, rfl⟩
    · rw [if_neg hnil, if_neg hnil]
      exact Or.inl ⟨rfl, rfl⟩
  | succ fuel ih =>
    intro i pData st lru
    rw [ClientSocketWorkerTask.writeDataNumLoop, readItems]
    by_cases hnil : pData = []
    · rw [if_pos hnil, if_pos hnil]
      exact Or.inr ⟨[], rfl, rfl⟩
    rw [if_neg hnil, if_neg hnil]
    cases load pData 0 8 with
    | none => exact Or.inl ⟨rfl, rfl⟩
    | some recordKey =>
    cases load pData 8 2 with
    | none => exact Or.inl ⟨rfl, rfl⟩
    | some recordSize =>
    simp only [Option.bind_eq_bind, Option.bind_some]
    cases load pData 10 (ofLE recordSize) with
    | none => exact Or.inl ⟨rfl, rfl⟩
    | some pRecord =>
    simp only [Option.bind_some]
    cases hread : readItems fuel (pData.drop (10 + ofLE recordSize)) with
    | none =>
      refine Or.inl ⟨?_, rfl⟩
      cases st.WriteData sh (cfg i) (cfgs i) lru X (UInt64.ofNat (ofLE recordKey)) pRecord with
      | none => rfl
      | some p =>
        rcases ih (i + 1) (pData.drop (10 + ofLE recordSize)) p.2.1 p.2.2 with
          ⟨hloop, -⟩ | ⟨items, hitems, -⟩
        · simp only [Option.bind_some, hloop, Option.bind_none]
        · rw [hread] at hitems
          cases hitems
    | some items =>
      refine Or.inr ⟨⟨UInt64.ofNat (ofLE recordKey), pRecord⟩ :: items, rfl, ?_⟩
      rw [writeItems]
      cases st.WriteData sh (cfg i) (cfgs i) lru X (UInt64.ofNat (ofLE recordKey)) pRecord with
      | none => rfl
      | some p =>
        rcases ih (i + 1) (pData.drop (10 + ofLE recordSize)) p.2.1 p.2.2 with
          ⟨-, hnone⟩ | ⟨items', hitems, hloop⟩
        · rw [hread] at hnone
          cases hnone
        · rw [hread] at hitems
          cases hitems
          simp only [Option.bind_eq_bind, Option.bind_some, hloop]

/-- The same writes on a block manager. -/
def Blman.writeRecords (sh : Shared) (cfg : ℕ → WriteCfg) : ℕ → List Record → Blman → Option Blman
  | _, [], m => some m
  | i, e :: es, m => do
    let (_, m) ← m.writeRecord sh (cfg i) e.key e.data
    writeRecords sh cfg (i + 1) es m

/-- With the record limit off the store keeps up with its block manager. -/
theorem writeItems_manager (hoff : ∀ i, (cfg i).EnableRecordLimit = false) (es : List Record) :
    ∀ (i : ℕ) (m : Blman) (st : Storage) (lru : LRUCache) (l : List UInt64),
      st.WritesTo X m → m.Inv → lru.IsList l →
      m.writeRecords sh cfg i es = none ∧ writeItems sh cfg cfgs X i es st lru = none
        ∨ ∃ m' statuses st' lru' l', m.writeRecords sh cfg i es = some m'
          ∧ writeItems sh cfg cfgs X i es st lru = some (statuses, st', lru')
          ∧ st'.WritesTo X m' ∧ m'.Inv ∧ lru'.IsList l' := by
  induction es with
  | nil =>
    intro i m st lru l hto hinv hlru
    exact Or.inr ⟨m, [], st, lru, l, rfl, rfl, hto, hinv, hlru⟩
  | cons e es ih =>
    intro i m st lru l hto hinv hlru
    rw [Blman.writeRecords, writeItems]
    rcases Storage.WriteData_manager hto hinv (hoff i) hlru with
      ⟨hw, hwd⟩ | ⟨status, m1, st1, lru1, r, l1, hw, hwd, hx, hm, hlru1⟩
    · rw [hw, hwd]
      exact Or.inl ⟨rfl, rfl⟩
    · have hinv1 := (Blman.writeRecord_cases hinv hw).inv hinv
      rw [hw, hwd]
      simp only [Option.bind_eq_bind, Option.bind_some]
      rcases ih (i + 1) m1 st1 lru1 l1 (Or.inr ⟨r, hx, hm⟩) hinv1 hlru1 with
        ⟨hnone, hnone'⟩ | ⟨m', statuses, st', lru', l', hsome, hsome', hto', hinv', hlru'⟩
      · rw [hnone, hnone']
        exact Or.inl ⟨rfl, rfl⟩
      · rw [hsome, hsome']
        exact Or.inr ⟨m', _, st', lru', l', rfl, rfl, hto', hinv', hlru'⟩

end Writes

/-! ## What is read of an X -/

namespace Storage

variable {sh : Shared} {st : Storage} {lru : LRUCache} {x : UInt64}

/-- The buffer after `ReadData` of one record into an empty buffer: nothing is appended if there
is no X. -/
def readBack (sh : Shared) (st : Storage) (lru : LRUCache) (x y : UInt64) : Option (List UInt8) :=
  (st.ReadData sh lru x y []).map fun p => p.1.getD []

/-- The keys `GetAllY` puts into an empty buffer. -/
def keysBack (sh : Shared) (st : Storage) (lru : LRUCache) (x : UInt64) : Option (List UInt64) :=
  (st.GetAllY sh lru x).map fun p => p.1.getD []

/-- What is read of an X is read of the manager its writes go to. -/
theorem WritesTo.reads {m : Blman} (h : st.WritesTo x m) (hz : GzipOk sh) (hinv : m.Inv)
    {l : List UInt64} (hlru : lru.IsList l) :
    (∀ y, st.readBack sh lru x y = m.readRecord sh y [])
      ∧ st.keysBack sh lru x = some m.getAllRecordKeys := by
  rcases h with ⟨hx, hc⟩ | ⟨r, hx, hm⟩
  · have hm : m = ⟨∅, [Blman.zeroBlock.initBlock]⟩ := Option.some.inj (hc.symm.trans rfl)
    refine ⟨fun y => ?_, ?_⟩
    · rw [readBack, ReadData, withBlockManager, hx, hm]
      rfl
    · rw [keysBack, GetAllY, withBlockManager, hx, hm]
      rfl
  · obtain ⟨lru', hput, -⟩ := hlru.put x
    refine ⟨fun y => ?_, ?_⟩
    · rw [readBack, ReadData, withBlockManager, hx]
      simp only [hput, CheckBlockManager, hm, Option.bind_eq_bind, Option.bind_some,
        hinv.readRecord_eq hz, Option.map_some, Option.getD_some, Option.pure_def]
    · rw [keysBack, GetAllY, withBlockManager, hx]
      simp only [hput, CheckBlockManager, hm, Option.bind_eq_bind, Option.bind_some,
        Option.map_some, Option.getD_some, Option.pure_def]

end Storage

/-! ## Import -/

namespace Blman

variable {sh : Shared} {m : Blman} {cfg : ℕ → WriteCfg}

/-- Records that fit into the stack buffer of a defragmentation are written by it in the same
way. -/
theorem insertLoop_eq (es : List Record) : ∀ (i fuel : ℕ) (m : Blman), es.length ≤ fuel →
    (∀ e ∈ es, e.data.length ≤ BLOCK_SIZE) →
    insertLoop sh cfg fuel i (es.flatMap Record.entry) m = m.writeRecords sh cfg i es := by
  induction es with
  | nil =>
    intro i fuel m hfuel hsize
    exact insertLoop_nil sh cfg fuel i m
  | cons e es ih =>
    intro i fuel m hfuel hsize
    rw [List.length_cons] at hfuel
    obtain ⟨fuel, rfl⟩ : ∃ n, fuel = n + 1 := ⟨fuel - 1, by omega⟩
    rw [List.forall_mem_cons] at hsize
    have hlt : e.data.length < 65536 := Nat.lt_of_le_of_lt hsize.1 (by decide)
    rw [List.flatMap_cons, insertLoop_entry sh cfg fuel i e _ m hlt,
      if_neg (Nat.not_lt.mpr hsize.1), writeRecords]
    cases m.writeRecord sh (cfg i) e.key e.data with
    | none => rfl
    | some p => exact ih (i + 1) fuel p.2 (by omega) hsize.2

/-- A key that comes in by a list of writes comes with a record that is not too big. -/
theorem writeRecords_keys (es : List Record) : ∀ (i : ℕ) (m m' : Blman), m.Inv →
    m.writeRecords sh cfg i es = some m' → ∀ k, m'.contents k ≠ none →
      m.contents k ≠ none ∨ ∃ e ∈ es, e.key = k ∧ e.data.length ≤ MAX_RECORD_SIZE := by
  induction es with
  | nil =>
    intro i m m' hinv hw k hk
    cases hw
    exact Or.inl hk
  | cons e es ih =>
    intro i m m' hinv hw k hk
    obtain ⟨⟨status, m1⟩, hw1, hw⟩ := Option.bind_eq_some_iff.mp hw
    have hcases := writeRecord_cases hinv hw1
    rcases ih (i + 1) m1 m' (hcases.inv hinv) hw k hk with hk1 | ⟨e', he', hek⟩
    · by_cases hsize : e.data.length ≤ MAX_RECORD_SIZE
      · by_cases hkey : e.key = k
        · exact Or.inr ⟨e, List.mem_cons_self, hkey, hsize⟩
        · -- a write adds no key but its own
          refine Or.inl fun hnone => hk1 ?_
          have hne : k ≠ e.key := fun heq => hkey heq.symm
          cases hcases with
          | tooBig => exact hnone
          | updated _ _ _ _ hm => rw [hm.contents, Function.update_of_ne hne, hnone]
          | refused _ _ _ _ _ _ _ _ hm =>
            rw [hm.contents, RecordMap.removeKeys, Function.update_of_ne hne, hnone, ite_self]
          | stored _ _ _ _ _ _ _ _ _ hcontents =>
            rw [hcontents, Function.update_of_ne hne, RecordMap.removeKeys,
              Function.update_of_ne hne, hnone, ite_self]
      · rcases writeRecord_status hw1 with ⟨-, -, -, hsame⟩ | ⟨hsmall, -⟩
        · exact Or.inl (hsame ▸ hk1)
        · exact absurd hsmall hsize
    · exact Or.inr ⟨e', List.mem_cons_of_mem _ he', hek⟩

/-- The stream of `m`, written to the X `x` of a store, gives the keys and the records of `m`. -/
def Imports (sh : Shared) (cfg : ℕ → WriteCfg) (cfgs : ℕ → ℕ → WriteCfg) (st : Storage)
    (lru : LRUCache) (x : UInt64) (m : Blman) : Prop :=
  ∃ stream statuses st' lru' ks, m.readRecords sh [] = some stream
    ∧ ClientSocketWorkerTask.writeDataNumLoop sh cfg cfgs x stream.length 0 stream st lru
      = some (statuses, st', lru')
    ∧ st'.keysBack sh lru' x = some ks ∧ (∀ k, k ∈ ks ↔ k ∈ m.getAllRecordKeys)
    ∧ ∀ y, st'.readBack sh lru' x y = m.readRecord sh y []

/-- An import into a new X is a list of writes to a new manager. -/
theorem Inv.imports_iff (hz : GzipOk sh) (h : m.Inv) {cfgs : ℕ → ℕ → WriteCfg}
    (hoff : ∀ i, (cfg i).EnableRecordLimit = false) {st : Storage} {lru : LRUCache}
    {l : List UInt64} (hlru : lru.IsList l) {x : UInt64}
    (hx : st.m_dataIndexes.lookup x = none) (hscan : ∀ b ∈ m.blocks, b.Scannable)
    (hsize : ∀ e ∈ m.expanded sh, e.data.length < 65536) {m0 : Blman}
    (hc : create none = some m0) (hinv0 : m0.Inv) :
    Imports sh cfg cfgs st lru x m
      ↔ ∃ m', m0.writeRecords sh cfg 0 (m.expanded sh) = some m' ∧ m'.Inv ∧ Keeps sh m m' := by
  obtain ⟨hstream, hitems⟩ := h.readItems_expanded hz hscan hsize
  have hloop : ClientSocketWorkerTask.writeDataNumLoop sh cfg cfgs x
      ((m.expanded sh).flatMap Record.entry).length 0 ((m.expanded sh).flatMap Record.entry) st lru
      = writeItems sh cfg cfgs x 0 (m.expanded sh) st lru := by
    rcases writeDataNumLoop_eq ((m.expanded sh).flatMap Record.entry).length 0
        ((m.expanded sh).flatMap Record.entry) st lru with ⟨-, hnone⟩ | ⟨items, hsome, hloop⟩
    · rw [hitems] at hnone
      cases hnone
    · rw [hitems] at hsome
      cases hsome
      exact hloop
  have hto : st.WritesTo x m0 := Or.inl ⟨hx, hc⟩
  rcases writeItems_manager hoff (m.expanded sh) 0 m0 st lru l hto hinv0 hlru with
    ⟨hnone, hnone'⟩ | ⟨m', statuses, st', lru', l', hsome, hsome', hto', hinv', hlru'⟩
  · refine iff_of_false ?_ ?_
    · rintro ⟨stream, statuses, st', lru', ks, hs, hl, -⟩
      rw [hstream] at hs
      cases hs
      rw [hloop, hnone'] at hl
      cases hl
    · rintro ⟨m', hm', -⟩
      rw [hnone] at hm'
      cases hm'
  · obtain ⟨hreads, hkeys⟩ := hto'.reads hz hinv' hlru'
    constructor
    · rintro ⟨stream, statuses1, st1, lru1, ks, hs, hl, hks, hk, hr⟩
      rw [hstream] at hs
      cases hs
      rw [hloop, hsome'] at hl
      cases hl
      rw [hkeys] at hks
      cases hks
      exact ⟨m', hsome, hinv', hk, fun y => (hreads y).symm.trans (hr y)⟩
    · rintro ⟨m1, hm1, -, hkeep⟩
      rw [hsome] at hm1
      cases hm1
      exact ⟨_, statuses, st', lru', _, hstream, hloop.trans hsome', hkeys, hkeep.keys,
        fun y => (hreads y).trans (hkeep.reads y)⟩

/-- The records can be read, parsed and written again. -/
theorem Inv.transfers_iff (hz : GzipOk sh) (h : m.Inv) {cfgs : ℕ → ℕ → WriteCfg}
    (hoff : ∀ i, (cfg i).EnableRecordLimit = false) {st : Storage} {lru : LRUCache}
    {l : List UInt64} (hlru : lru.IsList l) {x : UInt64}
    (hx : st.m_dataIndexes.lookup x = none) :
    (Exported sh m ∧ Imports sh cfg cfgs st lru x m) ↔ Repacks sh cfg m := by
  obtain ⟨m0, hc, hinv0, hnone⟩ := create_none
  have hempty : ∀ k, m0.contents k = none := fun k => congrFun hnone k
  have hnodup : (keys (m.expanded sh)).Nodup := by
    rw [keys_expanded]
    exact h.allKeys_nodup
  -- the loop of a defragmentation, on records of which none is too big
  have hinsert : (∀ e ∈ m.expanded sh, e.data.length ≤ MAX_RECORD_SIZE) →
      (∃ m', m0.writeRecords sh cfg 0 (m.expanded sh) = some m'
          ∧ Inserted sh cfg 0 m0 (m.expanded sh) m')
        ∨ m0.writeRecords sh cfg 0 (m.expanded sh) = none
          ∧ ¬ (Pack.placeAll CIDFOffset [CIDFOffset] (needs sh cfg 0 (m.expanded sh))).length
            < 65536 := by
    intro hsmall
    have hblock : ∀ e ∈ m.expanded sh, e.data.length ≤ BLOCK_SIZE := fun e he =>
      Nat.le_trans (hsmall e he) (by decide)
    have hlim : ∀ j, LimitKept (cfg j) (m0.blockIndex.count + (m.expanded sh).length) :=
      fun j => Or.inl (hoff j)
    have hloop := insertLoop_spec sh hlim (m.expanded sh) 0 (m.expanded sh).length m0 hinv0
      (fun e _ => hinv0.contents_eq_none.mp (hempty e.key)) hnodup
      (fun e he => Nat.lt_of_le_of_lt (hblock e he) (by decide)) (Nat.le_refl _) (Nat.le_refl _)
    rw [insertLoop_eq _ _ _ _ (Nat.le_refl _) hblock, frees_create hc] at hloop
    exact hloop.imp id fun hn => ⟨hn.1, fun hlt => hn.2 ⟨hblock, hlt⟩⟩
  constructor
  · rintro ⟨hexp, himp⟩
    obtain ⟨hscan, hsize⟩ := (h.exported_iff hz).mp hexp
    obtain ⟨m', hw, hinv', hkeep⟩ := (h.imports_iff hz hoff hlru hx hscan hsize hc hinv0).mp himp
    have hsmall : ∀ e ∈ m.expanded sh, e.data.length ≤ MAX_RECORD_SIZE := by
      intro e he
      have hkey : e.key ∈ m'.blockIndex := by
        rw [← mem_getAllRecordKeys, hkeep.keys, mem_getAllRecordKeys, h.mem_index_iff sh]
        exact List.mem_map_of_mem he
      rcases writeRecords_keys _ _ _ _ hinv0 hw e.key (hinv'.contents_ne_none.mpr hkey) with
        hne | ⟨e', he', heq, hle⟩
      · exact absurd (hempty e.key) hne
      · exact List.inj_on_of_nodup_map hnodup he' he heq ▸ hle
    rcases hinsert hsmall with ⟨m1, hw1, hins⟩ | ⟨hw1, -⟩
    · rw [hw] at hw1
      cases hw1
      exact hins.repacks hz h hc hscan hkeep
    · rw [hw] at hw1
      cases hw1
  · intro hr
    have hsize : ∀ e ∈ m.expanded sh, e.data.length < 65536 := fun e he =>
      Nat.lt_of_le_of_lt (hr.small e he) (by decide)
    refine ⟨(h.exported_iff hz).mpr ⟨hr.scannable, hsize⟩,
      (h.imports_iff hz hoff hlru hx hr.scannable hsize hc hinv0).mpr ?_⟩
    rcases hinsert hr.small with ⟨m', hw, hins⟩ | ⟨-, hnot⟩
    · exact ⟨m', hw, hins.inv, hins.keeps hz h hc hr⟩
    · exact absurd hr.counted hnot

/-- The stream of an X is read back as its records exactly when every block leaves room for
the scans and no record expands to more than its size field counts; written to a new X it gives
the same reads exactly when the records can also be written again. -/
theorem export_import_iff (hz : GzipOk sh) (hm : Live sh m) (cfgs : ℕ → ℕ → WriteCfg)
    (hoff : ∀ i, (cfg i).EnableRecordLimit = false) {st : Storage} {lru : LRUCache}
    {l : List UInt64} (hlru : lru.IsList l) {x : UInt64}
    (hx : st.m_dataIndexes.lookup x = none) :
    (Exported sh m ↔ (∀ b ∈ m.blocks, b.records.length < 409)
        ∧ ∀ e ∈ m.expanded sh, e.data.length < 65536)
      ∧ ((Exported sh m ∧ Imports sh cfg cfgs st lru x m) ↔ Repacks sh cfg m) :=
  ⟨hm.inv.exported_iff hz, hm.inv.transfers_iff hz hoff hlru hx⟩

/-- An X with two records, read and written to another one. -/
theorem export_import_iff_two : ∃ m, TwoRecords m ∧ Exported Shared.plain m
    ∧ Imports Shared.plain (fun _ => defaultWriteCfg) (fun _ _ => defaultWriteCfg) blank
      LRUCache.empty 9 m := by
  obtain ⟨m, h⟩ := exists_two
  have hx : blank.m_dataIndexes.lookup 9 = none := AList.lookup_empty 9
  have hboth := (export_import_iff Shared.gzipOk_plain h.live (fun _ _ => defaultWriteCfg)
    (fun _ => rfl) LRUCache.IsList.empty hx).2.mpr h.repacks
  exact ⟨m, h, hboth.1, hboth.2⟩

/-- The gzip stream of 65536 zeros. -/
def streamOf65536Zeros : List UInt8 :=
  [0x1F, 0x8B, 0x08, 0, 0, 0, 0, 0, 0x02, 0xFF, 0xED, 0xC1, 0x01, 0x01, 0, 0, 0, 0x80, 0x90, 0xFE,
    0xAF, 0xEE, 0x08, 0x0A] ++ List.replicate 63 0
    ++ [0x6A, 0xEB, 0x8E, 0x97, 0xD7, 0, 0, 0x01, 0]

/-- A reader is given 65536 zeros for this record of 96 bytes, the stream says that it has none
and goes on with them. -/
theorem export_desynchronised :
    GzipOk (Shared.oneStream streamOf65536Zeros (List.replicate 65536 0))
      ∧ streamOf65536Zeros.length = 96
      ∧ ∃ m0 st m stream, create none = some m0
        ∧ m0.writeRecord (Shared.oneStream streamOf65536Zeros (List.replicate 65536 0))
          defaultWriteCfg 7 streamOf65536Zeros = some (st, m)
        ∧ m.readRecord (Shared.oneStream streamOf65536Zeros (List.replicate 65536 0)) 7 []
          = some (List.replicate 65536 0)
        ∧ m.readRecords (Shared.oneStream streamOf65536Zeros (List.replicate 65536 0)) []
          = some stream
        ∧ stream.take 10 = toLE 8 7 ++ [0, 0]
        ∧ ¬ Exported (Shared.oneStream streamOf65536Zeros (List.replicate 65536 0)) m := by
  obtain ⟨sh, hsh⟩ : ∃ sh, sh = Shared.oneStream streamOf65536Zeros (List.replicate 65536 0) :=
    ⟨_, rfl⟩
  have hz : GzipOk sh := by
    rw [hsh]
    exact Shared.gzipOk_oneStream _ rfl
  have hstored : compressRecord sh defaultWriteCfg streamOf65536Zeros = streamOf65536Zeros := by
    rw [hsh]
    rfl
  have hexpand : expand sh streamOf65536Zeros = List.replicate 65536 0 := by
    rw [hsh, expand, Shared.oneStream]
    dsimp only
    rw [if_pos rfl]
    rfl
  rw [← hsh]
  refine ⟨hz, by decide, ?_⟩
  obtain ⟨m0, st, m, hc, hw, hlive, -, hscan, hexp⟩ := exists_one sh
    (by decide : streamOf65536Zeros.length ≤ MAX_RECORD_SIZE)
  rw [hstored, hexpand] at hexp
  have hmem : (⟨7, List.replicate 65536 0⟩ : Record) ∈ m.expanded sh := by
    rw [hexp]
    exact List.mem_singleton_self _
  have hscannable : ∀ b ∈ m.blocks, b.Scannable := hscan
  have hstream := hlive.inv.readRecords_eq hz
  rw [if_pos hscannable, hexp, List.flatMap_singleton] at hstream
  refine ⟨m0, st, m, _, hc, hw, hlive.inv.read_expanded hz hmem, hstream, ?_, fun hexport => ?_⟩
  · have hsize : toLE 2 (List.replicate 65536 (0 : UInt8)).length = [0, 0] := by
      rw [List.length_replicate]
      decide
    rw [Record.entry, hsize]
    exact List.take_left' (by rw [List.length_append, length_toLE]; rfl)
  · have hlt := ((hlive.inv.exported_iff hz).mp hexport).2 _ hmem
    rw [List.length_replicate] at hlt
    exact Nat.lt_irrefl _ hlt

end Blman

end TransDB
