/-
What `LoadFreeSpaceFromIndexDef` accepts.

The store builds its free space from the entries of the index file and stops when the
function says that they are corrupt. Here it is the function over any list of entries:
`int64` arithmetic that wraps, the entries in any order a sort by position may leave them in.
It finds every overlap. It does not find an entry that ends behind the end of the data file:
what is left of the file is negative then, and the test of it is for zero.
-/
import TransDB.FreeSpace
import Mathlib.Algebra.Order.Ring.Int

set_option autoImplicit false

namespace TransDB

namespace FreeSpaceBlockMap

/-- The value an integer leaves in an `int64` variable. -/
def s64 (n : Int) : Int := (n + 2 ^ 63) % 2 ^ 64 - 2 ^ 63

/-- One turn of the loop of `LoadFreeSpaceFromIndexDef` in `int64`. -/
def loadTurn64 (st : Int × Int × Bool × FreeSpaceBlockMap) (def_ : IndexDef) :
    Int × Int × Bool × FreeSpaceBlockMap :=
  let (freeSpaceStart, dataFileSizeTmp, status, rFreeSpaceBlockMap) := st
  let freeSpaceLen := s64 (def_.m_dataPosition - freeSpaceStart)
  let (status, rFreeSpaceBlockMap) :=
    if 0 < freeSpaceLen then (status, AddFreeSpace rFreeSpaceBlockMap freeSpaceStart freeSpaceLen)
    else if freeSpaceLen < 0 then (false, rFreeSpaceBlockMap)
    else (status, rFreeSpaceBlockMap)
  (s64 (freeSpaceStart + s64 (def_.m_dataLen + freeSpaceLen)),
    s64 (dataFileSizeTmp - s64 (def_.m_dataLen + freeSpaceLen)), status, rFreeSpaceBlockMap)

/-- `IndexBlock::LoadFreeSpaceFromIndexDef` in `int64`, after the sort. -/
def LoadFreeSpaceFromIndexDef64 (dataFileSize : Int) (rIndexDef : List IndexDef) :
    Bool × FreeSpaceBlockMap :=
  let (_, dataFileSizeTmp, status, rFreeSpaceBlockMap) :=
    rIndexDef.foldl loadTurn64 (0, dataFileSize, true, ∅)
  --add last piece of freespace
  if dataFileSizeTmp ≠ 0 then
    (status, AddFreeSpace rFreeSpaceBlockMap (s64 (dataFileSize - dataFileSizeTmp)) dataFileSizeTmp)
  else (status, rFreeSpaceBlockMap)

/-- A position and a length that an `int64` can hold. -/
structure InRange (d : IndexDef) : Prop where
  pos : 0 ≤ d.m_dataPosition
  pos_lt : d.m_dataPosition < 2 ^ 63
  len : 0 < d.m_dataLen
  len_lt : d.m_dataLen < 2 ^ 63

theorem s64_of_range {n : Int} (hlo : -2 ^ 63 ≤ n) (hhi : n < 2 ^ 63) : s64 n = n := by
  rw [s64]
  omega

/-! ## No turn overflows that matters -/

/-- A turn in `int64`. The end of the region before can be beyond the range, but not the gap:
the entries are sorted, so the next one starts at or after the start of the one before. -/
theorem loadTurn64_eq {start tmp : Int} {status : Bool} {m : FreeSpaceBlockMap} {d : IndexDef}
    (hd : InRange d) (hstart : 0 ≤ start) (hgap : start - d.m_dataPosition < 2 ^ 63) :
    loadTurn64 (s64 start, s64 tmp, status, m) d
      = (s64 (loadTurn (start, tmp, status, m) d).1, s64 (loadTurn (start, tmp, status, m) d).2.1,
        (loadTurn (start, tmp, status, m) d).2.2) := by
  have hlen : s64 (d.m_dataPosition - s64 start) = d.m_dataPosition - start := by
    have hpos := hd.pos
    have hpos_lt := hd.pos_lt
    rw [s64, s64]
    omega
  rw [loadTurn64, loadTurn]
  dsimp only
  rw [hlen]
  have hadd : 0 < d.m_dataPosition - start →
      AddFreeSpace m (s64 start) (d.m_dataPosition - start)
        = AddFreeSpace m start (d.m_dataPosition - start) := by
    intro hlt
    have hpos_lt := hd.pos_lt
    rw [s64_of_range (by omega) (by omega)]
  have hnext : s64 (s64 start + s64 (d.m_dataLen + (d.m_dataPosition - start)))
      = s64 (start + (d.m_dataLen + (d.m_dataPosition - start))) := by
    simp only [s64]
    omega
  have hleft : s64 (s64 tmp - s64 (d.m_dataLen + (d.m_dataPosition - start)))
      = s64 (tmp - (d.m_dataLen + (d.m_dataPosition - start))) := by
    simp only [s64]
    omega
  rw [hnext, hleft]
  by_cases hlt : 0 < d.m_dataPosition - start
  · rw [if_pos hlt, if_pos hlt, hadd hlt]
  · rw [if_neg hlt, if_neg hlt]

/-- The start after a turn is the end of the entry. -/
theorem loadTurn_fst (st : Int × Int × Bool × FreeSpaceBlockMap) (d : IndexDef) :
    (loadTurn st d).1 = d.region.stop ∧ (loadTurn st d).2.1 = st.2.1 + st.1 - d.region.stop := by
  have hstop : d.region.stop = d.m_dataPosition + d.m_dataLen := rfl
  obtain ⟨start, tmp, status, m⟩ := st
  rw [loadTurn, hstop]
  constructor
  · dsimp only
    omega
  · dsimp only
    omega

/-- The loop in `int64` over sorted entries. -/
theorem foldl_loadTurn64 (defs : List IndexDef) :
    ∀ (start tmp : Int) (status : Bool) (m : FreeSpaceBlockMap), (∀ d ∈ defs, InRange d) →
      defs.Pairwise IndexDef_le → 0 ≤ start →
      (∀ d ∈ defs, start - d.m_dataPosition < 2 ^ 63) →
      defs.foldl loadTurn64 (s64 start, s64 tmp, status, m)
        = (s64 (defs.foldl loadTurn (start, tmp, status, m)).1,
          s64 (defs.foldl loadTurn (start, tmp, status, m)).2.1,
          (defs.foldl loadTurn (start, tmp, status, m)).2.2) := by
  induction defs with
  | nil =>
    intro start tmp status m _ _ _ _
    rfl
  | cons d defs ih =>
    intro start tmp status m hrange hsorted hstart hgap
    rw [List.pairwise_cons] at hsorted
    have hd := hrange d List.mem_cons_self
    have hfst := (loadTurn_fst (start, tmp, status, m) d).1
    have hstop : d.region.stop = d.m_dataPosition + d.m_dataLen := rfl
    rw [List.foldl_cons, List.foldl_cons,
      loadTurn64_eq hd hstart (hgap d List.mem_cons_self)]
    refine ih _ _ _ _ (fun e he => hrange e (List.mem_cons_of_mem _ he)) hsorted.2 ?_ ?_
    · have hpos := hd.pos
      have hlen := hd.len
      omega
    · intro e he
      have hle : d.m_dataPosition ≤ e.m_dataPosition := hsorted.1 e he
      have hlen := hd.len_lt
      omega

/-- What the loop leaves: the end of the last entry, and the file behind it. -/
theorem foldl_loadTurn_fst (size : Int) (defs : List IndexDef) :
    ∀ (start : Int) (status : Bool) (m : FreeSpaceBlockMap), (∀ d ∈ defs, InRange d) →
      0 ≤ start → start < 2 ^ 64 →
      ∃ stop, 0 ≤ stop ∧ stop < 2 ^ 64
        ∧ (defs.foldl loadTurn (start, size - start, status, m)).1 = stop
        ∧ (defs.foldl loadTurn (start, size - start, status, m)).2.1 = size - stop := by
  induction defs with
  | nil =>
    intro start status m _ hstart hlt
    exact ⟨start, hstart, hlt, rfl, rfl⟩
  | cons d defs ih =>
    intro start status m hrange hstart hlt
    have hd := hrange d List.mem_cons_self
    have hstop : d.region.stop = d.m_dataPosition + d.m_dataLen := rfl
    obtain ⟨hfst, hsnd⟩ := loadTurn_fst (start, size - start, status, m) d
    have hturn : loadTurn (start, size - start, status, m) d = (d.region.stop,
        size - d.region.stop, (loadTurn (start, size - start, status, m) d).2.2) := by
      refine Prod.ext hfst (Prod.ext ?_ rfl)
      rw [hsnd]
      dsimp only
      omega
    rw [List.foldl_cons, hturn]
    have hpos := hd.pos
    have hpos_lt := hd.pos_lt
    have hlen := hd.len
    have hlen_lt := hd.len_lt
    exact ih d.region.stop _ _ (fun e he => hrange e (List.mem_cons_of_mem _ he)) (by omega)
      (by omega)

/-- In `int64` the function does what it does over the integers. -/
theorem load64_eq {size : Int} {defs : List IndexDef} (hsize : 0 ≤ size) (hlt : size < 2 ^ 63)
    (hrange : ∀ d ∈ defs, InRange d) (hsorted : defs.Pairwise IndexDef_le) :
    LoadFreeSpaceFromIndexDef64 size defs
      = loadEnd size (defs.foldl loadTurn (0, size, true, ∅)) := by
  have hfold := foldl_loadTurn64 defs 0 size true ∅ hrange hsorted (Int.le_refl 0) (fun d hd => by
    have hpos := (hrange d hd).pos
    omega)
  rw [s64_of_range (by omega) (by omega), s64_of_range (by omega) hlt] at hfold
  obtain ⟨stop, hstop0, hstop_lt, -, htmp⟩ := foldl_loadTurn_fst size defs 0 true ∅ hrange
    (Int.le_refl 0) (by omega)
  rw [Int.sub_zero] at htmp
  rw [LoadFreeSpaceFromIndexDef64, hfold, loadEnd, htmp]
  dsimp only
  -- what is left of the file, as an `int64`
  by_cases hzero : size - stop = 0
  · rw [if_neg (by rw [hzero]; decide), if_neg (by rw [hzero]; decide)]
  · have hne : s64 (size - stop) ≠ 0 := by
      rw [s64]
      omega
    rw [if_pos hne, if_pos hzero]
    by_cases hpos : stop < size
    · have hleft : s64 (size - stop) = size - stop := s64_of_range (by omega) (by omega)
      rw [hleft, s64_of_range (by omega) (by omega)]
    · -- nothing is added, whether what is left is negative or wraps to the other side
      have hrefused : AddFreeSpace (defs.foldl loadTurn (0, size, true, ∅)).2.2.2
          (size - (size - stop)) (size - stop)
            = (defs.foldl loadTurn (0, size, true, ∅)).2.2.2 := if_pos (Or.inr (by omega))
      have hrefused64 : AddFreeSpace (defs.foldl loadTurn (0, size, true, ∅)).2.2.2
          (s64 (size - s64 (size - stop))) (s64 (size - stop))
            = (defs.foldl loadTurn (0, size, true, ∅)).2.2.2 := by
        refine if_pos ?_
        simp only [s64]
        omega
      rw [hrefused, hrefused64]

/-! ## The overlaps -/

/-- The status of the loop: every entry starts at or after the end of the one before. -/
theorem foldl_loadTurn_status (defs : List IndexDef) :
    ∀ (start tmp : Int) (status : Bool) (m : FreeSpaceBlockMap), (∀ d ∈ defs, InRange d) →
      ((defs.foldl loadTurn (start, tmp, status, m)).2.2.1 = true
        ↔ status = true ∧ (∀ d ∈ defs, start ≤ d.m_dataPosition)
          ∧ defs.Pairwise fun d e => d.region.stop ≤ e.region.pos) := by
  induction defs with
  | nil =>
    intro start tmp status m _
    rw [List.foldl_nil]
    exact ⟨fun h => ⟨h, fun d hd => absurd hd List.not_mem_nil, List.Pairwise.nil⟩, fun h => h.1⟩
  | cons d defs ih =>
    intro start tmp status m hrange
    have hd := hrange d List.mem_cons_self
    have hfst := (loadTurn_fst (start, tmp, status, m) d).1
    have hstatus : (loadTurn (start, tmp, status, m) d).2.2.1 = true
        ↔ status = true ∧ start ≤ d.m_dataPosition := by
      rw [loadTurn]
      dsimp only
      by_cases hlt : 0 < d.m_dataPosition - start
      · rw [if_pos hlt]
        exact ⟨fun h => ⟨h, by omega⟩, fun h => h.1⟩
      · rw [if_neg hlt]
        by_cases hneg : d.m_dataPosition - start < 0
        · rw [if_pos hneg]
          exact ⟨fun h => absurd h Bool.false_ne_true, fun h => absurd h.2 (by omega)⟩
        · rw [if_neg hneg]
          exact ⟨fun h => ⟨h, by omega⟩, fun h => h.1⟩
    rw [List.foldl_cons, ih _ _ _ _ fun e he => hrange e (List.mem_cons_of_mem _ he), hstatus,
      hfst, List.pairwise_cons]
    have hstop : d.m_dataPosition ≤ d.region.stop := by
      have hlen := hd.len
      show d.m_dataPosition ≤ d.m_dataPosition + d.m_dataLen
      omega
    constructor
    · rintro ⟨⟨hst, hle⟩, hnext, hord⟩
      refine ⟨hst, fun e he => ?_, hnext, hord⟩
      rcases List.mem_cons.mp he with rfl | he
      · exact hle
      · exact Int.le_trans hle (Int.le_trans hstop (hnext e he))
    · rintro ⟨hst, hle, hnext, hord⟩
      exact ⟨⟨hst, hle d List.mem_cons_self⟩, hnext, hord⟩

/-- The status of the function is about the overlaps only. -/
theorem load64_status {size : Int} {defs sorted : List IndexDef} (hperm : sorted.Perm defs)
    (hsorted : sorted.Pairwise IndexDef_le) (hsize : 0 ≤ size) (hlt : size < 2 ^ 63)
    (hrange : ∀ d ∈ defs, InRange d) :
    (LoadFreeSpaceFromIndexDef64 size sorted).1 = true
      ↔ (defs.map IndexDef.region).Pairwise Region.Apart := by
  have hrange' : ∀ d ∈ sorted, InRange d := fun d hd => hrange d (hperm.mem_iff.mp hd)
  have hend : ∀ st, (loadEnd size st).1 = st.2.2.1 := by
    intro st
    rw [loadEnd]
    split
    all_goals rfl
  rw [load64_eq hsize hlt hrange' hsorted, hend, foldl_loadTurn_status sorted 0 size true ∅ hrange']
  have hperm' := hperm.map IndexDef.region
  constructor
  · rintro ⟨-, -, hord⟩
    refine hperm'.pairwise ?_ fun h => h.symm
    exact List.pairwise_map.mpr (hord.imp fun h => Or.inl h)
  · intro hap
    have hlens : ∀ r ∈ sorted.map IndexDef.region, 0 < r.len := by
      intro r hr
      obtain ⟨d, hd, rfl⟩ := List.mem_map.mp hr
      exact (hrange' d hd).len
    have hord := Region.pairwise_stop_le hlens (hperm'.symm.pairwise hap fun h => h.symm)
      (List.pairwise_map.mpr hsorted)
    exact ⟨rfl, fun d hd => (hrange' d hd).pos, List.pairwise_map.mp hord⟩

/-- The function tells sound entries from corrupt ones, and builds what the sound ones leave
of the file. -/
structure Detects (size : Int) (defs : List IndexDef) (result : Bool × FreeSpaceBlockMap) : Prop
    where
  status : result.1 = true ↔ (defs.map IndexDef.region).Pairwise Region.Apart
    ∧ ∀ d ∈ defs, 0 ≤ d.region.pos ∧ d.region.stop ≤ size
  tiles : result.1 = true → Region.Tiles 0 size (regions result.2 ++ defs.map IndexDef.region)
  /-- No two free regions touch, so none can be made longer. -/
  maximal : result.1 = true → (regions result.2).Pairwise Region.Clear

/-- The function detects every corruption but one: entries that do not overlap, the last of
which ends behind the end of the file. `sorted` is what the sort makes of the entries. -/
theorem load_detects_iff {size : Int} {defs sorted : List IndexDef} (hperm : sorted.Perm defs)
    (hsorted : sorted.Pairwise IndexDef_le) (hsize : 0 ≤ size) (hlt : size < 2 ^ 63)
    (hrange : ∀ d ∈ defs, InRange d) :
    Detects size defs (LoadFreeSpaceFromIndexDef64 size sorted)
      ↔ ¬ (defs.map IndexDef.region).Pairwise Region.Apart ∨ ∀ d ∈ defs, d.region.stop ≤ size := by
  have hstatus := load64_status hperm hsorted hsize hlt hrange
  have hrange' : ∀ d ∈ sorted, InRange d := fun d hd => hrange d (hperm.mem_iff.mp hd)
  constructor
  · intro h
    by_cases hap : (defs.map IndexDef.region).Pairwise Region.Apart
    · exact Or.inr fun d hd => ((h.status.mp (hstatus.mpr hap)).2 d hd).2
    · exact Or.inl hap
  · intro h
    have hin : (LoadFreeSpaceFromIndexDef64 size sorted).1 = true →
        ∀ d ∈ defs, 0 ≤ d.region.pos ∧ d.region.stop ≤ size := fun htrue d hd =>
      ⟨(hrange d hd).pos, h.resolve_left (fun hnot => hnot (hstatus.mp htrue)) d hd⟩
    have hload : (LoadFreeSpaceFromIndexDef64 size sorted).1 = true →
        ∃ m, LoadFreeSpaceFromIndexDef64 size sorted = (true, m) ∧ NoEmptyBucket m
          ∧ Region.Tiles 0 size (regions m ++ defs.map IndexDef.region)
          ∧ (regions m).Pairwise Region.Clear := by
      intro htrue
      rw [load64_eq hsize hlt hrange' hsorted]
      exact loadEnd_spec hperm hsorted hsize (fun d hd => (hrange d hd).len) (hin htrue)
        (hstatus.mp htrue)
    refine ⟨⟨fun htrue => ⟨hstatus.mp htrue, hin htrue⟩, fun hgood => hstatus.mpr hgood.1⟩,
      fun htrue => ?_, fun htrue => ?_⟩
    · obtain ⟨m, hm, -, htiles, -⟩ := hload htrue
      rw [hm]
      exact htiles
    · obtain ⟨m, hm, -, -, hclear⟩ := hload htrue
      rw [hm]
      exact hclear

/-- Two X in a file of six blocks, one block and two blocks long, with a free block in front of
each of them and one behind. -/
theorem load_detects_iff_two : Detects 24576 [⟨7, 4096, 4096⟩, ⟨8, 12288, 8192⟩]
    (LoadFreeSpaceFromIndexDef64 24576 [⟨7, 4096, 4096⟩, ⟨8, 12288, 8192⟩]) := by
  refine (load_detects_iff (List.Perm.refl _) (List.pairwise_pair.mpr (by decide)) (by decide)
    (by decide) fun d hd => ?_).mpr (Or.inr fun d hd => ?_)
  · rcases List.mem_pair.mp hd with rfl | rfl
    · exact ⟨by decide, by decide, by decide, by decide⟩
    · exact ⟨by decide, by decide, by decide, by decide⟩
  · rcases List.mem_pair.mp hd with rfl | rfl
    · decide
    · decide

/-- The file has been cut off in front of the X, and nothing is noticed. -/
theorem load_accepts_truncated :
    (LoadFreeSpaceFromIndexDef64 4096 [⟨7, 4096, 4096⟩]).1 = true
      ∧ ¬ Detects 4096 [⟨7, 4096, 4096⟩] (LoadFreeSpaceFromIndexDef64 4096 [⟨7, 4096, 4096⟩]) := by
  have htrue : (LoadFreeSpaceFromIndexDef64 4096 [⟨7, 4096, 4096⟩]).1 = true := by decide
  refine ⟨htrue, fun h => ?_⟩
  have hin := ((h.status.mp htrue).2 _ List.mem_cons_self).2
  exact absurd hin (by decide)

end FreeSpaceBlockMap

end TransDB
