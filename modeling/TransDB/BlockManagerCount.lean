/-
The block counter.

`blockCount` is a `uint16` that `blman_realloc_blocks` increments without a
test. Up to 65535 blocks everything is as it should be: the old blocks stay and
a fresh one follows. At 65535 the counter would be 0 after the increment, with
nothing allocated and a copy of `(0 - 1) * BLOCK_SIZE` bytes. No layer above
refuses the write that needs this block, and an X that is only ever written to
comes there.
-/
import TransDB.BlockManagerTerminates

set_option autoImplicit false

namespace TransDB

namespace Blman

/-- `blman_realloc_blocks` keeps every block and puts an initialised one behind
them, where the counter finds it. -/
def ReallocKeeps (m : Blman) : Prop :=
  ∃ m', m.reallocBlocks = some m' ∧ m'.blockIndex = m.blockIndex
    ∧ m'.blockCount = m.blockCount + 1
    ∧ (∀ (i : ℕ) (b : Block), m.blocks[i]? = some b → m'.blocks[i]? = some b)
    ∧ m'.getBlock (m'.blockCount - 1) = some zeroBlock.initBlock

theorem reallocKeeps_iff {m : Blman} (h : m.Inv) : m.ReallocKeeps ↔ m.blockCount ≠ 65535 := by
  have hlt := h.count_lt
  rw [ReallocKeeps, reallocBlocks]
  by_cases hroom : m.blockCount + 1 < 65536
  · rw [if_pos hroom]
    have hcount : blockCount ⟨m.blockIndex, m.blocks ++ [zeroBlock.initBlock]⟩
        = m.blockCount + 1 := by
      rw [blockCount, List.length_append]
      rfl
    refine iff_of_true ⟨_, rfl, rfl, hcount, fun i b hb => ?_, ?_⟩ (by omega)
    · rwa [List.getElem?_append_left (List.getElem?_eq_some_iff.mp hb).1]
    · rw [hcount, Nat.add_sub_cancel]
      exact List.getElem?_concat_length
  · rw [if_neg hroom]
    refine iff_of_false ?_ (by omega)
    rintro ⟨m', heq, -⟩
    cases heq

section Write

variable (sh : Shared) (cfg : WriteCfg) (m : Blman) (recordkey : UInt64) (record : List UInt8)

/-- The write keeps the counter in its range: it returns, and the blocks are those
there were, and one more if one was allocated. A write that stays in the limit loop
does not come to the blocks. -/
def CountKept : Prop :=
  m.StuckInLimit sh cfg recordkey record
    ∨ ∃ st m', m.writeRecord sh cfg recordkey record = some (st, m')
      ∧ m'.blockCount = m.blockCount + (if st.reallocatedBlocks then 1 else 0)
      ∧ 1 ≤ m'.blockCount ∧ m'.blockCount < 65536

variable {sh cfg m recordkey record}

/-- A write adds a block exactly when it says so. -/
theorem writeRecord_count (h : m.Inv) {st : WriteStatus} {m' : Blman}
    (hw : m.writeRecord sh cfg recordkey record = some (st, m')) :
    m'.blockCount = m.blockCount + (if st.reallocatedBlocks then 1 else 0) := by
  have hcases := writeRecord_cases h hw
  cases hre : st.reallocatedBlocks with
  | false => exact hcases.count hre
  | true =>
    cases hcases with
    | tooBig => cases hre
    | updated => cases hre
    | refused _ _ hsize hold hsmall =>
      rcases writeRecord_status hw with ⟨hbig, -⟩ | ⟨-, -, hnone⟩
      · omega
      · cases (hnone hold).symm.trans hre
    | stored _ _ hsize hold hsmall hroom hnew hdefrag hinv hcontents hframe hcount =>
      rw [hre] at hcount
      exact hcount

/-- A write keeps the counter unless it needs block 65535. -/
theorem Inv.countKept_iff (h : m.Inv) :
    m.CountKept sh cfg recordkey record
      ↔ m.StuckInLimit sh cfg recordkey record ∨ ¬ m.Overflows sh cfg recordkey record := by
  have hnone : m.writeRecord sh cfg recordkey record = none ↔ _ := h.writeRecord_none_iff
  constructor
  · rintro (hstuck | ⟨st, m', hw, -⟩)
    · exact Or.inl hstuck
    · refine Or.inr fun hov => ?_
      rw [hnone.mpr (Or.inr hov)] at hw
      cases hw
  · rintro (hstuck | hnot)
    · exact Or.inl hstuck
    · by_cases hstuck : m.StuckInLimit sh cfg recordkey record
      · exact Or.inl hstuck
      · obtain ⟨⟨st, m'⟩, hw⟩ := Option.ne_none_iff_exists'.mp
          (fun hn => (hnone.mp hn).elim hstuck hnot)
        have hinv := (writeRecord_cases h hw).inv h
        exact Or.inr ⟨st, m', hw, writeRecord_count h hw,
          List.length_pos_of_ne_nil hinv.nonempty, hinv.count_lt⟩

end Write

/-- In every run the counter counts the blocks, of which there is one at least. It
fails for the write that needs the block after number 65534, and for no other. -/
theorem block_counter_iff {sh : Shared} {m : Blman} (h : Live sh m) :
    (1 ≤ m.blockCount ∧ m.blockCount < 65536)
      ∧ (m.ReallocKeeps ↔ m.blockCount ≠ 65535)
      ∧ ∀ (cfg : WriteCfg) (recordkey : UInt64) (record : List UInt8),
        m.CountKept sh cfg recordkey record
          ↔ m.StuckInLimit sh cfg recordkey record ∨ ¬ m.Overflows sh cfg recordkey record :=
  ⟨⟨List.length_pos_of_ne_nil h.inv.nonempty, h.inv.count_lt⟩, reallocKeeps_iff h.inv,
    fun _ _ _ => h.inv.countKept_iff⟩

/-! ## An X that is only written to -/

/-- Records of a block each, stored as they are, without a limit. -/
def wholeBlocks : WriteCfg where
  RecordSizeForCompression := 5000
  GzipCompressionLevel := 5
  EnableRecordLimit := false
  RecordLimit _ := 1000
  DefragAfterRecordDelete := 5

/-- `n` records of the largest size, and not a byte left. -/
structure FilledWith (m : Blman) (n : ℕ) : Prop where
  live : Live Shared.plain m
  frees : m.frees = List.replicate n 0
  keys : ∀ k : UInt64, k ∈ m.blockIndex → k.toNat < n

theorem compressRecord_whole (record : List UInt8) (hsize : record.length ≤ MAX_RECORD_SIZE) :
    compressRecord Shared.plain wholeBlocks record = record := by
  refine if_neg ?_
  simp only [MAX_RECORD_SIZE, CIDFOffset, sizeofRDF, BLOCK_SIZE, sizeofCIDF] at hsize
  change ¬ (5000 : Int) < record.length
  omega

/-- The write of a largest record under the next key, if the blocks are full after it. -/
theorem write_whole {m : Blman} (hlive : Live Shared.plain m) {n : ℕ} (hn : n < 65535)
    (hkeys : ∀ k : UInt64, k ∈ m.blockIndex → k.toNat < n)
    (hplace : Pack.place CIDFOffset m.frees CIDFOffset = List.replicate (n + 1) 0) :
    ∃ st m', m.writeRecord Shared.plain wholeBlocks (UInt64.ofNat n)
      (List.replicate MAX_RECORD_SIZE 0) = some (st, m') ∧ FilledWith m' (n + 1) := by
  have hkey : UInt64.ofNat n ∉ m.blockIndex := by
    intro hk
    have hlt := hkeys _ hk
    rw [UInt64.toNat_ofNat_of_lt' (by change n < 2 ^ 64; omega)] at hlt
    exact Nat.lt_irrefl n hlt
  have hsize : (List.replicate MAX_RECORD_SIZE (0 : UInt8)).length = MAX_RECORD_SIZE :=
    List.length_replicate
  have hneed : (compressRecord Shared.plain wholeBlocks
      (List.replicate MAX_RECORD_SIZE 0)).length + sizeofRDF = CIDFOffset := by
    rw [compressRecord_whole _ (Nat.le_of_eq hsize), hsize]
    rfl
  have hlim : limitReached wholeBlocks m.blockIndex = false := rfl
  rcases writeRecord_new Shared.plain hlive.inv hkey hlim (Nat.le_of_eq hsize) with
    ⟨st, m', hw, hadd⟩ | ⟨-, hfull⟩
  · refine ⟨st, m', hw, Live.write m m' _ _ _ st hlive hw, ?_, fun k hk => ?_⟩
    · rw [hadd.frees, hneed, hplace]
    · rw [← hadd.inv.contents_ne_none, hadd.contents] at hk
      by_cases heq : k = UInt64.ofNat n
      · rw [heq, UInt64.toNat_ofNat_of_lt' (by change n < 2 ^ 64; omega)]
        exact Nat.lt_succ_self n
      · rw [Function.update_of_ne heq, hlive.inv.contents_ne_none] at hk
        exact Nat.lt_succ_of_lt (hkeys k hk)
  · rw [hneed, hplace, List.length_replicate] at hfull
    omega

theorem slot_filled (n : ℕ) : Pack.slot (List.replicate n 0) CIDFOffset n = none := by
  refine (Pack.slot_eq_none n).mpr fun k hk => ?_
  rw [List.getD_replicate _ hk]
  decide

theorem place_filled (n : ℕ) :
    Pack.place CIDFOffset (List.replicate n 0) CIDFOffset = List.replicate (n + 1) 0 := by
  rw [Pack.place_none (by rw [List.length_replicate]; exact slot_filled n), Nat.sub_self,
    List.replicate_succ']

/-- Writing alone fills any number of blocks that can be counted. -/
theorem exists_filled (n : ℕ) (hn : n < 65535) : ∃ m, FilledWith m (n + 1) := by
  induction n with
  | zero =>
    obtain ⟨m, hm, hinv, hnone⟩ := create_none
    obtain ⟨st, m', -, hfilled⟩ := write_whole (Live.new m hm) (by decide : 0 < 65535)
      (fun k hk => absurd (congrFun hnone k) (hinv.contents_ne_none.mpr hk))
      (by rw [frees_create hm]; decide)
    exact ⟨m', hfilled⟩
  | succ n ih =>
    obtain ⟨m, hfilled⟩ := ih (by omega)
    obtain ⟨st, m', -, hfilled'⟩ := write_whole hfilled.live hn hfilled.keys
      (by rw [hfilled.frees, place_filled])
    exact ⟨m', hfilled'⟩

/-- Three full blocks, and a record for which a fourth is allocated. -/
theorem block_counter_iff_fourth : ∃ m st m', Live Shared.plain m ∧ m.blockCount = 3
    ∧ m.ReallocKeeps
    ∧ m.CountKept Shared.plain wholeBlocks 3 (List.replicate MAX_RECORD_SIZE 0)
    ∧ m.writeRecord Shared.plain wholeBlocks 3 (List.replicate MAX_RECORD_SIZE 0) = some (st, m')
    ∧ m'.blockCount = 4 := by
  obtain ⟨m, hfilled⟩ := exists_filled 2 (by decide)
  have hcount : m.blockCount = 3 := by
    rw [← length_frees, hfilled.frees, List.length_replicate]
  obtain ⟨st, m', hw, hfilled'⟩ := write_whole hfilled.live (by decide : 3 < 65535) hfilled.keys
    (by rw [hfilled.frees, place_filled])
  obtain ⟨-, hkeeps, hkept⟩ := block_counter_iff hfilled.live
  refine ⟨m, st, m', hfilled.live, hcount, hkeeps.mpr (by omega),
    (hkept _ _ _).mpr (Or.inr fun hov => ?_), hw, ?_⟩
  · have hlast := hov.last
    omega
  · rw [← length_frees, hfilled'.frees, List.length_replicate]

/-- Record number 65536 is not refused: the counter wraps. -/
theorem block_counter_wraps : ∃ m, Live Shared.plain m ∧ m.blockCount = 65535
    ∧ m.reallocBlocks = none
    ∧ m.writeRecord Shared.plain wholeBlocks 65535 (List.replicate MAX_RECORD_SIZE 0) = none
    ∧ ¬ m.CountKept Shared.plain wholeBlocks 65535 (List.replicate MAX_RECORD_SIZE 0) := by
  obtain ⟨m, hfilled⟩ := exists_filled 65534 (by decide)
  have hinv := hfilled.live.inv
  have hcount : m.blockCount = 65535 := by
    rw [← length_frees, hfilled.frees, List.length_replicate]
  have hkey : (65535 : UInt64) ∉ m.blockIndex := fun hk =>
    absurd (hfilled.keys _ hk) (by decide)
  have hwrite : m.writeRecord Shared.plain wholeBlocks 65535 (List.replicate MAX_RECORD_SIZE 0)
      = none := by
    have hlim : limitReached wholeBlocks m.blockIndex = false := rfl
    have hsize : (List.replicate MAX_RECORD_SIZE (0 : UInt8)).length ≤ MAX_RECORD_SIZE :=
      Nat.le_of_eq List.length_replicate
    rcases writeRecord_new Shared.plain hinv hkey hlim hsize with
      ⟨st, m', hw, hadd⟩ | ⟨hnone, -⟩
    · have hlt := hadd.inv.count_lt
      have hneed : (compressRecord Shared.plain wholeBlocks
          (List.replicate MAX_RECORD_SIZE 0)).length + sizeofRDF = CIDFOffset := by
        rw [compressRecord_whole _ hsize, List.length_replicate]
        rfl
      rw [← length_frees, hadd.frees, hneed, hfilled.frees, place_filled, List.length_replicate]
        at hlt
      omega
    · exact hnone
  refine ⟨m, hfilled.live, hcount, if_neg (by omega), hwrite, ?_⟩
  rintro (hstuck | ⟨st, m', hw, -⟩)
  · exact not_stuckInLimit rfl hstuck
  · rw [hwrite] at hw
    cases hw

end Blman

end TransDB
