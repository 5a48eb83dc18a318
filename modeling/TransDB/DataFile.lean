/-
Reading the data file after it has been written.

What is read back depends on the writes to the region only: `OnlyIn` says that a
number of writes stayed in some other region, and then they change nothing. A
write of the whole region is what is read then, and a write of one of its blocks
replaces this block.
-/
import TransDB.Storage

set_option autoImplicit false

namespace TransDB

theorem Block.ext_getElem {b c : Block}
    (h : ∀ j, j < BLOCK_SIZE → b.bytes[j]? = c.bytes[j]?) : b = c := by
  refine Block.ext (List.ext_getElem? fun j => ?_)
  by_cases hj : j < BLOCK_SIZE
  · exact h j hj
  · rw [List.getElem?_eq_none (by rw [b.size_eq]; omega),
      List.getElem?_eq_none (by rw [c.size_eq]; omega)]

namespace DataFile

variable {f : DataFile}

/-- Where block `i` of `n` blocks lies. -/
theorem offset_le {i n : ℕ} (h : i < n) :
    0 ≤ (i : Int) * BLOCK_SIZE ∧ (i : Int) * BLOCK_SIZE + BLOCK_SIZE ≤ n * BLOCK_SIZE := by
  show 0 ≤ (i : Int) * ((4096 : ℕ) : Int)
    ∧ (i : Int) * ((4096 : ℕ) : Int) + ((4096 : ℕ) : Int) ≤ n * ((4096 : ℕ) : Int)
  omega

theorem block_getElem (f : DataFile) (pos : Int) {j : ℕ} (hj : j < BLOCK_SIZE) :
    (f.block pos).bytes[j]? = some (f.bytes (pos + j)) := by
  rw [block, List.getElem?_map, List.getElem?_range hj]
  rfl

/-- Blocks that agree byte for byte are equal. -/
theorem block_congr {f g : DataFile} {pos : Int}
    (h : ∀ p, pos ≤ p → p < pos + BLOCK_SIZE → f.bytes p = g.bytes p) :
    f.block pos = g.block pos := by
  refine Block.ext_getElem fun j hj => ?_
  rw [block_getElem f pos hj, block_getElem g pos hj, h _ (by omega) (by omega)]

/-- A region that is read successfully lies in the file. -/
theorem fread_eq_some {pos : Int} {n : ℕ} {bs : List Block} :
    f.fread pos n = some bs ↔ (0 ≤ pos ∧ pos + n * BLOCK_SIZE ≤ f.size)
      ∧ bs.length = n ∧ ∀ i : ℕ, i < n → bs[i]? = some (f.block (pos + i * BLOCK_SIZE)) := by
  rw [fread]
  by_cases hin : 0 ≤ pos ∧ pos + n * BLOCK_SIZE ≤ f.size
  · rw [if_pos hin, Option.some.injEq, and_iff_right hin]
    constructor
    · rintro rfl
      refine ⟨by rw [List.length_map, List.length_range], fun i hi => ?_⟩
      rw [List.getElem?_map, List.getElem?_range hi]
      rfl
    · rintro ⟨hlen, hget⟩
      refine List.ext_getElem? fun i => ?_
      by_cases hi : i < n
      · rw [hget i hi, List.getElem?_map, List.getElem?_range hi]
        rfl
      · rw [List.getElem?_eq_none (by rw [List.length_map, List.length_range]; omega),
          List.getElem?_eq_none (by omega)]
  · rw [if_neg hin]
    constructor
    · intro h
      cases h
    · rintro ⟨h, -⟩
      exact absurd h hin

/-- Two files that agree on a region read it alike. -/
theorem fread_congr {f g : DataFile} {pos : Int} {n : ℕ} {bs : List Block}
    (h : f.fread pos n = some bs) (hsize : f.size ≤ g.size)
    (hbytes : ∀ p, pos ≤ p → p < pos + n * BLOCK_SIZE → g.bytes p = f.bytes p) :
    g.fread pos n = some bs := by
  obtain ⟨⟨hpos, hin⟩, hlen, hget⟩ := fread_eq_some.mp h
  refine fread_eq_some.mpr ⟨⟨hpos, by omega⟩, hlen, fun i hi => ?_⟩
  rw [hget i hi, Option.some.injEq]
  have hoff := offset_le hi
  exact block_congr fun p hlo hhi => (hbytes p (by omega) (by omega)).symm

/-- The region of a number of blocks. -/
def blocksAt (pos : Int) (n : ℕ) : Region := ⟨pos, n * BLOCK_SIZE⟩

/-- `g` is `f`, but for a region and for what has been added at the end. -/
structure OnlyIn (reg : Region) (f g : DataFile) : Prop where
  size_le : f.size ≤ g.size
  bytes : ∀ p, 0 ≤ p → p < f.size → ¬ reg.Mem p → g.bytes p = f.bytes p

namespace OnlyIn

variable {reg : Region} {g : DataFile}

theorem refl (reg : Region) (f : DataFile) : OnlyIn reg f f := ⟨Int.le_refl _, fun _ _ _ _ => rfl⟩

theorem trans {k : DataFile} (h : OnlyIn reg f g) (h' : OnlyIn reg g k) : OnlyIn reg f k where
  size_le := h.size_le.trans h'.size_le
  bytes p h0 hp hout := by
    have hg := h.size_le
    rw [h'.bytes p h0 (by omega) hout, h.bytes p h0 hp hout]

/-- A write in the region. -/
theorem fwrite (f : DataFile) {pos : Int} {src : List UInt8}
    (hin : reg.pos ≤ pos ∧ pos + src.length ≤ reg.stop) : OnlyIn reg f (f.fwrite pos src) where
  size_le := Int.le_max_left _ _
  bytes p h0 hp hout := by
    refine if_neg ?_
    rintro ⟨h1, h2⟩
    exact hout ⟨by omega, by omega⟩

/-- A file that grows. -/
theorem fresize {size : Int} (hsize : f.size ≤ size) : OnlyIn reg f (f.fresize size) where
  size_le := hsize
  bytes _ _ hp _ := if_pos hp

/-- Blocks outside the region are read as before. -/
theorem fread (h : OnlyIn reg f g) {pos : Int} {n : ℕ} {bs : List Block}
    (hread : f.fread pos n = some bs) (ha : (blocksAt pos n).Apart reg) :
    g.fread pos n = some bs := by
  obtain ⟨hpos, hin⟩ := (fread_eq_some.mp hread).1
  refine fread_congr hread h.size_le fun p hlo hhi => ?_
  refine h.bytes p (by omega) (by omega) ?_
  exact ha.not_mem ⟨hlo, hhi⟩

end OnlyIn

theorem getElem?_flatMap_bytes (bs : List Block) {i j : ℕ} {b : Block} (hb : bs[i]? = some b)
    (hj : j < BLOCK_SIZE) : (bs.flatMap Block.bytes)[i * BLOCK_SIZE + j]? = b.bytes[j]? := by
  induction bs generalizing i with
  | nil => cases hb
  | cons c bs ih =>
    rw [List.flatMap_cons]
    cases i with
    | zero =>
      cases hb
      rw [Nat.zero_mul, Nat.zero_add, List.getElem?_append_left (by rw [b.size_eq]; exact hj)]
    | succ i =>
      rw [List.getElem?_cons_succ] at hb
      have hidx : (i + 1) * BLOCK_SIZE + j = c.bytes.length + (i * BLOCK_SIZE + j) := by
        rw [c.size_eq, Nat.add_mul]
        omega
      rw [hidx, List.getElem?_append_right (Nat.le_add_right _ _), Nat.add_sub_cancel_left]
      exact ih hb

theorem length_flatMap_bytes (bs : List Block) :
    (bs.flatMap Block.bytes).length = bs.length * BLOCK_SIZE := by
  induction bs with
  | nil => rw [List.flatMap_nil, List.length_nil, List.length_nil, Nat.zero_mul]
  | cons b bs ih =>
    rw [List.flatMap_cons, List.length_append, ih, b.size_eq, List.length_cons, Nat.add_mul]
    omega

/-- The bytes a write puts into the file. -/
theorem bytes_fwrite {q : Int} {src : List UInt8} {k : ℕ} {v : UInt8} (hv : src[k]? = some v) :
    (f.fwrite q src).bytes (q + k) = v := by
  have hk := (List.getElem?_eq_some_iff.mp hv).1
  show (if q ≤ q + k ∧ q + k < q + src.length then src.getD (q + k - q).toNat 0 else _) = v
  have hidx : (q + (k : Int) - q).toNat = k := by omega
  rw [if_pos (by omega), hidx, List.getD_eq_getElem?_getD, hv]
  rfl

/-- The whole region written. -/
theorem fread_fwrite_self (f : DataFile) {pos : Int} (bs : List Block) (hpos : 0 ≤ pos) :
    (f.fwrite pos (bs.flatMap Block.bytes)).fread pos bs.length = some bs := by
  refine fread_eq_some.mpr ⟨⟨hpos, ?_⟩, rfl, fun i hi => ?_⟩
  · show _ ≤ max f.size (pos + (bs.flatMap Block.bytes).length)
    rw [length_flatMap_bytes]
    omega
  · obtain ⟨b, hb⟩ : ∃ b, bs[i]? = some b := ⟨_, List.getElem?_eq_getElem hi⟩
    rw [hb, Option.some.injEq]
    refine Block.ext_getElem fun j hj => ?_
    obtain ⟨v, hv⟩ : ∃ v, b.bytes[j]? = some v :=
      ⟨_, List.getElem?_eq_getElem (by rw [b.size_eq]; exact hj)⟩
    have hsrc := (getElem?_flatMap_bytes bs hb hj).trans hv
    have hbyte := bytes_fwrite (f := f) (q := pos) hsrc
    have hidx : pos + ((i * BLOCK_SIZE + j : ℕ) : Int) = pos + (i : Int) * BLOCK_SIZE + j := by
      rw [Int.natCast_add, Int.natCast_mul]
      omega
    rw [hidx] at hbyte
    rw [block_getElem _ _ hj, hbyte, hv]

/-- One block of the region written. -/
theorem fread_fwrite_block {pos : Int} {n i : ℕ} {bs : List Block} (b : Block)
    (h : f.fread pos n = some bs) (hi : i < n) :
    (f.fwrite (pos + i * BLOCK_SIZE) b.bytes).fread pos n = some (bs.set i b) := by
  obtain ⟨⟨hpos, hin⟩, hlen, hget⟩ := fread_eq_some.mp h
  refine fread_eq_some.mpr ⟨⟨hpos, ?_⟩, by rw [List.length_set, hlen], fun k hk => ?_⟩
  · show _ ≤ max f.size _
    omega
  · by_cases hki : k = i
    · subst hki
      rw [List.getElem?_set_self (by rw [hlen]; exact hk), Option.some.injEq]
      refine Block.ext_getElem fun j hj => ?_
      obtain ⟨v, hv⟩ : ∃ v, b.bytes[j]? = some v :=
        ⟨_, List.getElem?_eq_getElem (by rw [b.size_eq]; exact hj)⟩
      rw [block_getElem _ _ hj, bytes_fwrite hv, hv]
    · rw [List.getElem?_set_ne (Ne.symm hki), hget k hk, Option.some.injEq]
      refine block_congr fun p hlo hhi => ?_
      have hout : ¬ (pos + i * BLOCK_SIZE ≤ p ∧ p < pos + i * BLOCK_SIZE + b.bytes.length) := by
        rw [b.size_eq]
        rintro ⟨h1, h2⟩
        rcases Nat.lt_or_gt_of_ne hki with hlt | hlt
        · have hoff := offset_le hlt
          omega
        · have hoff := offset_le hlt
          omega
      exact (if_neg hout).symm

end DataFile

end TransDB
