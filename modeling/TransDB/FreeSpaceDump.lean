/-
The report of the free space, and what the client makes of it.

`_S_DiskWriter_GetFreeSpaceDump` writes the size of the data file, the number of buckets
and each bucket with the length of its regions and how many there are, in the order of the
map; a full dump has their positions too. `inspectFreeSpaceFragment` of `transDB.py` reads
it back. It reads unsigned numbers and no positions, so it is the other half of the short
dump, and of this one only while the numbers are not negative (`inspect_dump`).
-/
import TransDB.FreeSpaceRuns
import TransDB.ByteList
import Mathlib.Algebra.BigOperators.Ring.Finset
import Mathlib.Algebra.Order.BigOperators.Group.List

set_option autoImplicit false

namespace TransDB

open ByteList

/-! ## The code -/

/-- An `int64` as it is appended. -/
def int64Bytes (n : Int) : List UInt8 := toLE 8 (n % 2 ^ 64).toNat

namespace FreeSpaceBlockMap

/-- A bucket: a length, and the positions of the regions of this length. -/
abbrev Bucket := Sigma fun _ : Int => List Int

/-- The map from its first bucket to its last. -/
def buckets (rFreeSpaceBlockMap : FreeSpaceBlockMap) : List Bucket :=
  rFreeSpaceBlockMap.entries.insertionSort fun a b => a.1 ≤ b.1

/-- What is appended for a bucket. -/
def dumpBucket (fullDump : Bool) (b : Bucket) : List UInt8 :=
  --append block size
  int64Bytes b.1
    --append block count
    ++ toLE 8 b.2.length
    ++ if fullDump then b.2.flatMap int64Bytes else []

/-- `_S_DiskWriter_GetFreeSpaceDump` -/
def GetFreeSpaceDump (rFreeSpaceBlockMap : FreeSpaceBlockMap) (dataFileSize : Int)
    (fullDump : Bool) : List UInt8 :=
  --data file size
  int64Bytes dataFileSize
    --freeSpace size
    ++ toLE 8 rFreeSpaceBlockMap.entries.length
    ++ rFreeSpaceBlockMap.buckets.flatMap (dumpBucket fullDump)

theorem buckets_perm (m : FreeSpaceBlockMap) : m.buckets.Perm m.entries :=
  List.perm_insertionSort _ _

theorem nodup_buckets (m : FreeSpaceBlockMap) : (m.buckets.map Sigma.fst).Nodup :=
  (m.buckets_perm.map Sigma.fst).nodup_iff.mpr m.nodupKeys

/-- A bucket has the regions of its length. -/
theorem countP_regions {m : FreeSpaceBlockMap} (len : Int) :
    (regions m).countP (fun r => r.len = len) = ((m.lookup len).getD []).length := by
  have hother : (regions (m.erase len)).countP (fun r => r.len = len) = 0 := by
    refine List.countP_eq_zero.mpr fun r hr hlen => ?_
    obtain ⟨len', offsets, hl, hr⟩ := KeyMap.mem_collect.mp hr
    obtain ⟨pos, -, rfl⟩ := List.mem_map.mp hr
    obtain rfl := of_decide_eq_true hlen
    rw [AList.lookup_erase] at hl
    cases hl
  cases hl : m.lookup len with
  | none =>
    rw [regions, KeyMap.collect_erase_of_none hl] at hother
    exact hother
  | some offsets =>
    have hall : (offsets.map fun pos => (⟨pos, len⟩ : Region)).countP (fun r => r.len = len)
        = offsets.length := by
      rw [List.countP_map]
      exact List.countP_eq_length.mpr fun pos _ => decide_eq_true rfl
    rw [(regions_perm hl).countP_eq, List.countP_append, hall, hother]
    rfl

theorem sum_regions (m : FreeSpaceBlockMap) :
    ((regions m).map Region.len).sum = (m.entries.map fun b => b.1 * (b.2.length : Int)).sum := by
  rw [regions, KeyMap.collect]
  induction m.entries with
  | nil => rfl
  | cons b bs ih =>
    have hb : ((b.2.map fun pos => (⟨pos, b.1⟩ : Region)).map Region.len).sum
        = b.1 * (b.2.length : Int) := by
      have hlens : (b.2.map fun pos => (⟨pos, b.1⟩ : Region)).map Region.len
          = List.replicate b.2.length b.1 := by
        rw [List.map_map]
        exact List.map_const'
      rw [hlens, List.sum_replicate, nsmul_eq_mul, mul_comm]
    rw [List.flatMap_cons, List.map_append, List.sum_append, ih, List.map_cons, List.sum_cons, hb]

end FreeSpaceBlockMap

namespace PythonClient

/-- `struct.unpack_from("<QQ", data, offset)`; `none` is a `struct.error`. -/
def unpackQQ (data : List UInt8) (offset : ℕ) : Option (ℕ × ℕ) :=
  if offset + 16 ≤ data.length then
    some (ofLE (slice data offset 8), ofLE (slice data (offset + 8) 8))
  else none

/-- An assignment to a key of an `OrderedDict`, which leaves a key that is there where it is. -/
def setItem (blocks : List (ℕ × ℕ)) (key value : ℕ) : List (ℕ × ℕ) :=
  if key ∈ blocks.map Prod.fst then
    blocks.map fun b => if b.1 = key then (key, value) else b
  else blocks ++ [(key, value)]

/-- The loop of `inspectFreeSpaceFragment`. -/
def inspectLoop (data : List UInt8) : ℕ → ℕ → List (ℕ × ℕ) → Option (List (ℕ × ℕ))
  | 0, _, blocks => some blocks
  | items + 1, offset, blocks => do
    let (blocksize, blockcount) ← unpackQQ data offset
    inspectLoop data items (offset + 16) (setItem blocks blocksize blockcount)

/-- `inspectFreeSpaceFragment`: the size of the data file, the number of buckets, and the number
of regions by their length. -/
def inspectFreeSpaceFragment (data : List UInt8) : Option (ℕ × ℕ × List (ℕ × ℕ)) := do
  let (data_sz, items) ← unpackQQ data 0
  let blocks ← inspectLoop data items 16 []
  return (data_sz, items, blocks)

/-! ## The round trip -/

theorem unpackQQ_append {pre a b rest : List UInt8} (ha : a.length = 8) (hb : b.length = 8) :
    unpackQQ (pre ++ a ++ b ++ rest) pre.length = some (ofLE a, ofLE b) := by
  have hfirst : slice (pre ++ a ++ b ++ rest) pre.length 8 = a := by
    rw [List.append_assoc (pre ++ a)]
    exact slice_append pre a (b ++ rest) _ _ rfl ha.symm
  have hsecond : slice (pre ++ a ++ b ++ rest) (pre.length + 8) 8 = b :=
    slice_append (pre ++ a) b rest _ _ (by rw [List.length_append, ha]) hb.symm
  rw [unpackQQ, if_pos (by simp only [List.length_append]; omega), hfirst, hsecond]

theorem ofLE_int64Bytes {n : Int} (h0 : 0 ≤ n) (h : n < 2 ^ 63) : ofLE (int64Bytes n) = n.toNat := by
  have hmod : n % 2 ^ 64 = n := Int.emod_eq_of_lt h0 (by omega)
  rw [int64Bytes, hmod]
  exact ofLE_toLE_of_lt (by omega)

open FreeSpaceBlockMap

/-- A bucket as the client reads it. -/
def shown (b : Bucket) : ℕ × ℕ := (b.1.toNat, b.2.length)

/-- The bucket can be written and read. -/
structure Readable (b : Bucket) : Prop where
  nonneg : 0 ≤ b.1
  length : b.1 < 2 ^ 63
  count : b.2.length < 2 ^ 64

theorem setItem_new {blocks : List (ℕ × ℕ)} {b : Bucket}
    (h : (shown b).1 ∉ blocks.map Prod.fst) :
    setItem blocks (shown b).1 (shown b).2 = blocks ++ [shown b] := if_neg h

theorem inspectLoop_dump {bs : List Bucket} : ∀ {pre rest : List UInt8} {blocks : List (ℕ × ℕ)},
    (∀ b ∈ bs, Readable b) → ((blocks ++ bs.map shown).map Prod.fst).Nodup →
    inspectLoop (pre ++ bs.flatMap (dumpBucket false) ++ rest) bs.length pre.length blocks
      = some (blocks ++ bs.map shown) := by
  induction bs with
  | nil =>
    intro pre rest blocks _ _
    rw [List.map_nil, List.append_nil]
    rfl
  | cons b bs ih =>
    intro pre rest blocks hread hnodup
    have hb := hread b List.mem_cons_self
    have hlen : (int64Bytes b.1 ++ toLE 8 b.2.length).length = 16 := by
      rw [List.length_append, int64Bytes, length_toLE, length_toLE]
    have hdump : dumpBucket false b = int64Bytes b.1 ++ toLE 8 b.2.length := by
      rw [dumpBucket, if_neg Bool.false_ne_true, List.append_nil]
    have hunpack : unpackQQ (pre ++ (b :: bs).flatMap (dumpBucket false) ++ rest) pre.length
        = some (shown b) := by
      have hsplit : pre ++ (b :: bs).flatMap (dumpBucket false) ++ rest
          = pre ++ int64Bytes b.1 ++ toLE 8 b.2.length
            ++ (bs.flatMap (dumpBucket false) ++ rest) := by
        rw [List.flatMap_cons, hdump]
        simp only [List.append_assoc]
      have hfields : unpackQQ (pre ++ int64Bytes b.1 ++ toLE 8 b.2.length
          ++ (bs.flatMap (dumpBucket false) ++ rest)) pre.length
            = some (ofLE (int64Bytes b.1), ofLE (toLE 8 b.2.length)) :=
        unpackQQ_append (length_toLE _ _) (length_toLE _ _)
      rw [hsplit, hfields, ofLE_int64Bytes hb.nonneg hb.length, ofLE_toLE_of_lt hb.count]
      rfl
    have hnew : (shown b).1 ∉ blocks.map Prod.fst := by
      rw [List.map_cons, List.map_append, List.map_cons] at hnodup
      exact fun hmem => (List.nodup_append.mp hnodup).2.2 _ hmem _ List.mem_cons_self rfl
    have hstep : inspectLoop (pre ++ (b :: bs).flatMap (dumpBucket false) ++ rest) (bs.length + 1)
        pre.length blocks = inspectLoop (pre ++ (b :: bs).flatMap (dumpBucket false) ++ rest)
          bs.length (pre.length + 16) (blocks ++ [shown b]) := by
      rw [inspectLoop, hunpack]
      change inspectLoop _ _ _ (setItem blocks (shown b).1 (shown b).2) = _
      rw [setItem_new hnew]
    have hrest : pre ++ (b :: bs).flatMap (dumpBucket false) ++ rest
        = (pre ++ (int64Bytes b.1 ++ toLE 8 b.2.length)) ++ bs.flatMap (dumpBucket false)
          ++ rest := by
      rw [List.flatMap_cons, hdump]
      simp only [List.append_assoc]
    have hoffset : pre.length + 16 = (pre ++ (int64Bytes b.1 ++ toLE 8 b.2.length)).length := by
      rw [List.length_append, hlen]
    rw [List.length_cons, hstep, hrest, hoffset, ih (fun c hc => hread c (List.mem_cons_of_mem b hc))
      (by rwa [List.append_assoc, List.singleton_append, ← List.map_cons]),
      List.append_assoc, List.singleton_append, ← List.map_cons]

/-- The client reads what the short dump says. -/
theorem inspect_dump {m : FreeSpaceBlockMap} {dataFileSize : Int} (h0 : 0 ≤ dataFileSize)
    (h : dataFileSize < 2 ^ 63) (hcount : m.entries.length < 2 ^ 64)
    (hread : ∀ b ∈ m.entries, Readable b) :
    inspectFreeSpaceFragment (m.GetFreeSpaceDump dataFileSize false)
      = some (dataFileSize.toNat, m.entries.length, m.buckets.map shown) := by
  have hlen : (int64Bytes dataFileSize ++ toLE 8 m.entries.length).length = 16 := by
    rw [List.length_append, int64Bytes, length_toLE, length_toLE]
  have hhead : unpackQQ (m.GetFreeSpaceDump dataFileSize false) 0
      = some (dataFileSize.toNat, m.entries.length) := by
    have hunpack : unpackQQ ([] ++ int64Bytes dataFileSize ++ toLE 8 m.entries.length
        ++ m.buckets.flatMap (dumpBucket false)) 0
          = some (ofLE (int64Bytes dataFileSize), ofLE (toLE 8 m.entries.length)) :=
      unpackQQ_append (length_toLE _ _) (length_toLE _ _)
    rwa [ofLE_int64Bytes h0 h, ofLE_toLE_of_lt hcount] at hunpack
  have hbuckets : m.buckets.length = m.entries.length := m.buckets_perm.length_eq
  have hread' : ∀ b ∈ m.buckets, Readable b := fun b hb => hread b (m.buckets_perm.mem_iff.mp hb)
  have hnodup : ((([] : List (ℕ × ℕ)) ++ m.buckets.map shown).map Prod.fst).Nodup := by
    rw [List.nil_append, List.map_map]
    have hkeys : ((m.buckets.map Sigma.fst).map Int.toNat).Nodup := by
      refine List.Nodup.map_on (fun a ha b hb hab => ?_) m.nodup_buckets
      obtain ⟨c, hc, rfl⟩ := List.mem_map.mp ha
      obtain ⟨d, hd, rfl⟩ := List.mem_map.mp hb
      have hc0 := (hread' c hc).nonneg
      have hd0 := (hread' d hd).nonneg
      omega
    rwa [List.map_map] at hkeys
  have hloop : inspectLoop (int64Bytes dataFileSize ++ toLE 8 m.entries.length
      ++ m.buckets.flatMap (dumpBucket false) ++ []) m.buckets.length
      (int64Bytes dataFileSize ++ toLE 8 m.entries.length).length []
        = some ([] ++ m.buckets.map shown) := inspectLoop_dump hread' hnodup
  rw [List.append_nil, hlen, hbuckets, List.nil_append] at hloop
  rw [inspectFreeSpaceFragment, hhead]
  change (inspectLoop _ _ _ _).bind _ = _
  rw [GetFreeSpaceDump, hloop]
  rfl

/-! ## What the report says of the file -/

section Tiled

variable {m : FreeSpaceBlockMap} {dataFileSize : Int} {other : List Region}

/-- A bucket of free space of a file. -/
theorem bucket_nonempty (hne : NoEmptyBucket m)
    (ht : Region.Tiles 0 dataFileSize (regions m ++ other)) {b : Bucket} (hb : b ∈ m.entries) :
    0 < b.1 ∧ b.1 ≤ dataFileSize ∧ 0 < b.2.length := by
  have hl : m.lookup b.1 = some b.2 := KeyMap.mem_entries.mp hb
  obtain ⟨pos, hpos⟩ := List.exists_mem_of_ne_nil b.2 fun hnil => hne b.1 (by rw [hl, hnil])
  have hmem : (⟨pos, b.1⟩ : Region) ∈ regions m ++ other :=
    List.mem_append_left _ (KeyMap.mem_collect.mpr ⟨b.1, b.2, hl, List.mem_map_of_mem hpos⟩)
  have hlen := ht.pos _ hmem
  obtain ⟨h0, hstop⟩ := ht.inside _ hmem
  rw [Region.stop] at hstop
  dsimp only at hlen h0 hstop
  exact ⟨hlen, by omega, List.length_pos_of_mem hpos⟩

/-- The space that a report lists. -/
def listed (blocks : List (ℕ × ℕ)) : ℕ := (blocks.map fun b => b.1 * b.2).sum

/-- It is the file without the rest. -/
theorem listed_shown (hne : NoEmptyBucket m)
    (ht : Region.Tiles 0 dataFileSize (regions m ++ other)) (h0 : 0 ≤ dataFileSize) :
    (listed (m.entries.map shown) : Int) + (other.map Region.len).sum = dataFileSize := by
  have hsum := ht.sum_len h0
  rw [List.map_append, List.sum_append, sum_regions, sub_zero] at hsum
  rw [← hsum, listed, List.map_map, Nat.cast_list_sum, List.map_map]
  refine congrArg (· + _) (congrArg List.sum (List.map_congr_left fun b hb => ?_))
  have hpos := (bucket_nonempty hne ht hb).1
  rw [Function.comp_apply, Function.comp_apply, shown, Nat.cast_mul, Int.toNat_of_nonneg hpos.le]

theorem readable (hne : NoEmptyBucket m)
    (ht : Region.Tiles 0 dataFileSize (regions m ++ other)) (h0 : 0 ≤ dataFileSize)
    (h : dataFileSize < 2 ^ 63) : m.entries.length < 2 ^ 64 ∧ ∀ b ∈ m.entries, Readable b := by
  have hsum := listed_shown hne ht h0
  have hrest : 0 ≤ (other.map Region.len).sum := by
    refine List.sum_nonneg fun n hn => ?_
    obtain ⟨r, hr, rfl⟩ := List.mem_map.mp hn
    exact (ht.pos r (List.mem_append_right _ hr)).le
  have hone : ∀ n ∈ (m.entries.map shown).map fun b => b.1 * b.2, 1 ≤ n := by
    intro n hn
    obtain ⟨c, hc, rfl⟩ := List.mem_map.mp hn
    obtain ⟨b, hb, rfl⟩ := List.mem_map.mp hc
    obtain ⟨hpos, -, hcount⟩ := bucket_nonempty hne ht hb
    exact Nat.mul_pos (Int.lt_toNat.mpr hpos) hcount
  have hlen := List.length_le_sum_of_one_le _ hone
  rw [List.length_map, List.length_map, ← listed] at hlen
  refine ⟨by omega, fun b hb => ?_⟩
  obtain ⟨hpos, hle, hcount⟩ := bucket_nonempty hne ht hb
  have hterm : (shown b).1 * (shown b).2 ≤ listed (m.entries.map shown) :=
    List.le_sum_of_mem (List.mem_map_of_mem (List.mem_map_of_mem hb))
  have hmul : (shown b).2 ≤ (shown b).1 * (shown b).2 :=
    Nat.le_mul_of_pos_left _ (Int.lt_toNat.mpr hpos)
  have hshown : (shown b).2 = b.2.length := rfl
  exact ⟨hpos.le, by omega, by omega⟩

/-- What the client reads of a file that is divided up: how many free regions there are of each
length, and these and the rest make up the file. -/
theorem inspect_tiled (hne : NoEmptyBucket m)
    (ht : Region.Tiles 0 dataFileSize (regions m ++ other)) (h0 : 0 ≤ dataFileSize)
    (h : dataFileSize < 2 ^ 63) :
    ∃ blocks, inspectFreeSpaceFragment (m.GetFreeSpaceDump dataFileSize false)
        = some (dataFileSize.toNat, blocks.length, blocks)
      ∧ (∀ len count : ℕ, (len, count) ∈ blocks
        ↔ 0 < count ∧ (regions m).countP (fun r => r.len = (len : Int)) = count)
      ∧ (listed blocks : Int) + (other.map Region.len).sum = dataFileSize := by
  obtain ⟨hentries, hread⟩ := readable hne ht h0 h
  have hperm : (m.buckets.map shown).Perm (m.entries.map shown) := m.buckets_perm.map shown
  refine ⟨m.buckets.map shown, ?_, fun len count => ?_, ?_⟩
  · rw [inspect_dump h0 h hentries hread, List.length_map, m.buckets_perm.length_eq]
  · rw [hperm.mem_iff, countP_regions, List.mem_map]
    constructor
    · rintro ⟨b, hb, heq⟩
      obtain ⟨hpos, -, hcount⟩ := bucket_nonempty hne ht hb
      cases heq
      refine ⟨hcount, ?_⟩
      rw [Int.toNat_of_nonneg hpos.le, KeyMap.mem_entries.mp hb]
      rfl
    · rintro ⟨hcount, rfl⟩
      cases hl : m.lookup (len : Int) with
      | none =>
        rw [hl] at hcount
        cases hcount
      | some offsets => exact ⟨⟨len, offsets⟩, KeyMap.mem_entries.mpr hl, rfl⟩
  · have hsum := listed_shown hne ht h0
    rwa [listed, ← (hperm.map _).sum_eq] at hsum

end Tiled

end PythonClient

end TransDB
