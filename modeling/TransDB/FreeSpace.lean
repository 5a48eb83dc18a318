/-
`m_rFreeSpace`: the unused regions of the data file, by length.

The map sends a length to the offsets of the free regions of that length; the
last offset of a bucket is the next to be used. The functions are those of
`DiskWriter.cpp` and `IndexBlock.cpp`; what they do to the free regions is stated
on `regions`, the list of all of them, up to its order. Positions and lengths are
integers here; the sums that the source takes in `int64` are those of
`GetFreeSpacePos64` and `LoadFreeSpaceFromIndexDef64`.
-/
import TransDB.KeyMap
import TransDB.Region
import Mathlib.Data.List.Sort

set_option autoImplicit false

namespace TransDB

/-- `FreeSpaceBlockMap` -/
abbrev FreeSpaceBlockMap := AList fun _ : Int => List Int

/-- `struct IndexDef` -/
structure IndexDef where
  m_key : UInt64
  m_dataPosition : Int
  m_dataLen : Int
  deriving DecidableEq, Repr

/-- The region of an index entry. -/
def IndexDef.region (d : IndexDef) : Region := ⟨d.m_dataPosition, d.m_dataLen⟩

namespace FreeSpaceBlockMap

/-! ## The functions -/

/-- An offset appended to the bucket of a length, which is made if missing. -/
def push (rFreeSpace : FreeSpaceBlockMap) (lenght pos : Int) : FreeSpaceBlockMap :=
  match rFreeSpace.lookup lenght with
  | some offsets => rFreeSpace.insert lenght (offsets ++ [pos])
  | none => rFreeSpace.insert lenght [pos]

/-- `DiskWriter::AddFreeSpace` -/
def AddFreeSpace (rFreeSpace : FreeSpaceBlockMap) (pos lenght : Int) : FreeSpaceBlockMap :=
  if pos < 0 ∨ lenght ≤ 0 then rFreeSpace else push rFreeSpace lenght pos

/-- The first length in the order of the map that is greater. -/
def firstGreater (rFreeSpace : FreeSpaceBlockMap) (lenght : Int) : Option Int :=
  (rFreeSpace.keys.filter (lenght < ·)).min?

/-- The bucket of a length, erased from the map if it is empty. -/
def eraseIfEmpty (rFreeSpace : FreeSpaceBlockMap) (lenght : Int) : FreeSpaceBlockMap :=
  if rFreeSpace.lookup lenght = some [] then rFreeSpace.erase lenght else rFreeSpace

/-- `DiskWriter::GetFreeSpacePos`: the position, or -1. The last element of an
empty bucket is undefined behaviour. -/
def GetFreeSpacePos (rFreeSpace : FreeSpaceBlockMap) (lenght : Int) :
    Option (Int × FreeSpaceBlockMap) :=
  match rFreeSpace.lookup lenght with
  | some offsets => do
    let returnPos ← offsets.getLast?
    let rFreeSpace := rFreeSpace.insert lenght offsets.dropLast
    return (returnPos, eraseIfEmpty rFreeSpace lenght)
  | none =>
    match firstGreater rFreeSpace lenght with
    | some found => do
      let offsets ← rFreeSpace.lookup found
      --get 1st position and remove from list
      let returnPos ← offsets.getLast?
      let rFreeSpace := rFreeSpace.insert found offsets.dropLast
      --update or add new position
      let rFreeSpace := push rFreeSpace (found - lenght) (returnPos + lenght)
      return (returnPos, eraseIfEmpty rFreeSpace found)
    | none => some (-1, rFreeSpace)

/-- `_S_SortIndexDef`, as the order it sorts by. -/
def IndexDef_le (a b : IndexDef) : Prop := a.m_dataPosition ≤ b.m_dataPosition

instance : DecidableRel IndexDef_le := fun _ _ => inferInstanceAs (Decidable (_ ≤ _))

instance : Std.Total IndexDef_le := ⟨fun a b => Int.le_total a.m_dataPosition b.m_dataPosition⟩

instance : IsTrans IndexDef IndexDef_le := ⟨fun _ _ _ h h' => Int.le_trans h h'⟩

/-- One turn of the loop of `LoadFreeSpaceFromIndexDef`: `freeSpaceStart`,
`dataFileSizeTmp`, the status and the map. -/
def loadTurn (st : Int × Int × Bool × FreeSpaceBlockMap) (def_ : IndexDef) :
    Int × Int × Bool × FreeSpaceBlockMap :=
  let (freeSpaceStart, dataFileSizeTmp, status, rFreeSpaceBlockMap) := st
  let freeSpaceLen := def_.m_dataPosition - freeSpaceStart
  let (status, rFreeSpaceBlockMap) :=
    if 0 < freeSpaceLen then (status, AddFreeSpace rFreeSpaceBlockMap freeSpaceStart freeSpaceLen)
    else if freeSpaceLen < 0 then (false, rFreeSpaceBlockMap)
    else (status, rFreeSpaceBlockMap)
  (freeSpaceStart + (def_.m_dataLen + freeSpaceLen),
    dataFileSizeTmp - (def_.m_dataLen + freeSpaceLen), status, rFreeSpaceBlockMap)

/-- `IndexBlock::LoadFreeSpaceFromIndexDef` into an empty map: the status and the
map. -/
def LoadFreeSpaceFromIndexDef (dataFileSize : Int) (rIndexDef : List IndexDef) :
    Bool × FreeSpaceBlockMap :=
  let (_, dataFileSizeTmp, status, rFreeSpaceBlockMap) :=
    (rIndexDef.insertionSort IndexDef_le).foldl loadTurn (0, dataFileSize, true, ∅)
  --add last piece of freespace
  if dataFileSizeTmp ≠ 0 then
    (status, AddFreeSpace rFreeSpaceBlockMap (dataFileSize - dataFileSizeTmp) dataFileSizeTmp)
  else (status, rFreeSpaceBlockMap)

/-! ## The regions -/

/-- The free regions. -/
def regions (m : FreeSpaceBlockMap) : List Region :=
  KeyMap.collect (fun len offsets => offsets.map fun pos => ⟨pos, len⟩) m

/-- No bucket is empty. -/
def NoEmptyBucket (m : FreeSpaceBlockMap) : Prop := ∀ len, m.lookup len ≠ some []

theorem regions_empty : regions ∅ = [] := rfl

theorem noEmptyBucket_empty : NoEmptyBucket ∅ := by
  intro len h
  cases h

variable {m : FreeSpaceBlockMap}

theorem regions_insert (len : Int) (offsets : List Int) :
    regions (m.insert len offsets)
      = (offsets.map fun pos => ⟨pos, len⟩) ++ regions (m.erase len) := rfl

theorem regions_perm {len : Int} {offsets : List Int} (h : m.lookup len = some offsets) :
    (regions m).Perm ((offsets.map fun pos => ⟨pos, len⟩) ++ regions (m.erase len)) :=
  KeyMap.collect_perm h

/-- `push` adds the region; the other buckets stay. -/
theorem push_spec (m : FreeSpaceBlockMap) (len pos : Int) :
    (regions (push m len pos)).Perm (⟨pos, len⟩ :: regions m)
      ∧ (push m len pos).lookup len ≠ some []
      ∧ ∀ len', len' ≠ len → (push m len pos).lookup len' = m.lookup len' := by
  rw [push]
  rcases hl : m.lookup len with _ | offsets
  · refine ⟨?_, ?_, fun len' h => AList.lookup_insert_ne h⟩
    · rw [regions_insert, regions, KeyMap.collect_erase_of_none hl]
      exact List.Perm.refl _
    · rw [AList.lookup_insert]
      exact fun h => nomatch h
  · refine ⟨?_, ?_, fun len' h => AList.lookup_insert_ne h⟩
    · rw [regions_insert, List.map_append, List.append_assoc]
      exact List.perm_middle.trans ((regions_perm hl).symm.cons _)
    · rw [AList.lookup_insert]
      exact fun h => List.append_ne_nil_of_right_ne_nil _ (List.cons_ne_nil _ _) (Option.some.inj h)

/-- `AddFreeSpace` adds the region. -/
theorem AddFreeSpace_spec (hm : NoEmptyBucket m) {pos len : Int} (hpos : 0 ≤ pos) (hlen : 0 < len) :
    (regions (AddFreeSpace m pos len)).Perm (⟨pos, len⟩ :: regions m)
      ∧ NoEmptyBucket (AddFreeSpace m pos len) := by
  obtain ⟨hreg, hself, hother⟩ := push_spec m len pos
  rw [AddFreeSpace, if_neg (by omega)]
  refine ⟨hreg, fun len' => ?_⟩
  by_cases hl : len' = len
  · rw [hl]
    exact hself
  · rw [hother len' hl]
    exact hm len'

/-- Erasing an empty bucket loses no region. -/
theorem eraseIfEmpty_spec {len : Int} (hm : ∀ len', len' ≠ len → m.lookup len' ≠ some []) :
    (regions (eraseIfEmpty m len)).Perm (regions m) ∧ NoEmptyBucket (eraseIfEmpty m len) := by
  rw [eraseIfEmpty]
  by_cases hl : m.lookup len = some []
  · rw [if_pos hl]
    refine ⟨(regions_perm hl).symm, fun len' => ?_⟩
    by_cases hlen : len' = len
    · rw [hlen, AList.lookup_erase]
      exact fun h => nomatch h
    · rw [AList.lookup_erase_ne hlen]
      exact hm len' hlen
  · rw [if_neg hl]
    refine ⟨List.Perm.refl _, fun len' => ?_⟩
    by_cases hlen : len' = len
    · rw [hlen]
      exact hl
    · exact hm len' hlen

/-- The last offset of a bucket that is not empty. -/
theorem getLast_spec (hm : NoEmptyBucket m) {len : Int} {offsets : List Int}
    (hl : m.lookup len = some offsets) :
    ∃ pos, offsets.getLast? = some pos
      ∧ (regions m).Perm (⟨pos, len⟩ :: regions (m.insert len offsets.dropLast)) := by
  rcases List.eq_nil_or_concat offsets with rfl | ⟨init, pos, rfl⟩
  · exact absurd hl (hm len)
  rw [List.concat_eq_append] at *
  refine ⟨pos, List.getLast?_concat, ?_⟩
  have hperm := regions_perm hl
  rw [List.map_append, List.append_assoc] at hperm
  rw [List.dropLast_concat, regions_insert]
  exact hperm.trans List.perm_middle

theorem lookup_insert_dropLast (hm : NoEmptyBucket m) {len : Int} (offsets : List Int) :
    ∀ len', len' ≠ len → (m.insert len offsets).lookup len' ≠ some [] := by
  intro len' hlen
  rw [AList.lookup_insert_ne hlen]
  exact hm len'

theorem firstGreater_some {len found : Int} (h : firstGreater m len = some found) :
    len < found ∧ ∃ offsets, m.lookup found = some offsets := by
  have hmem := List.min?_mem h
  rw [List.mem_filter] at hmem
  refine ⟨of_decide_eq_true hmem.2, ?_⟩
  exact Option.isSome_iff_exists.mp (AList.lookup_isSome.mpr (AList.mem_keys.mpr hmem.1))

theorem firstGreater_none {len : Int} (h : firstGreater m len = none) :
    ∀ r ∈ regions m, r.len ≤ len := by
  intro r hr
  obtain ⟨l, offsets, hl, hmem⟩ := KeyMap.mem_collect.mp hr
  obtain ⟨pos, -, rfl⟩ := List.mem_map.mp hmem
  have hkey : l ∈ m.keys := AList.mem_keys.mp (AList.lookup_isSome.mp (by rw [hl]; rfl))
  rw [firstGreater, List.min?_eq_none_iff, List.filter_eq_nil_iff] at h
  have hnot := h l hkey
  rw [decide_eq_true_eq] at hnot
  exact Int.not_lt.mp hnot

/-- The smallest greater length. -/
theorem firstGreater_le {len found : Int} (h : firstGreater m len = some found) {r : Region}
    (hr : r ∈ regions m) (hlt : len < r.len) : found ≤ r.len := by
  obtain ⟨l, offsets, hl, hmem⟩ := KeyMap.mem_collect.mp hr
  obtain ⟨pos, -, rfl⟩ := List.mem_map.mp hmem
  have hkey : l ∈ m.keys := AList.mem_keys.mp (AList.lookup_isSome.mp (by rw [hl]; rfl))
  exact (List.min?_eq_some_iff.mp h).2 l
    (List.mem_filter.mpr ⟨hkey, decide_eq_true hlt⟩)

theorem mem_regions_lookup {r : Region} (h : r ∈ regions m) : m.lookup r.len ≠ none := by
  obtain ⟨l, offsets, hl, hmem⟩ := KeyMap.mem_collect.mp h
  obtain ⟨pos, -, rfl⟩ := List.mem_map.mp hmem
  rw [hl]
  exact Option.some_ne_none _

/-- `GetFreeSpacePos` takes the front of a free region of the smallest length that is enough
and puts the rest back; -1 means that no free region is long enough. -/
theorem GetFreeSpacePos_cases (hm : NoEmptyBucket m) (len : Int) :
    ∃ p m', GetFreeSpacePos m len = some (p, m') ∧ NoEmptyBucket m'
      ∧ ((p = -1 ∧ m' = m ∧ ∀ r ∈ regions m, r.len < len)
        ∨ ∃ r rs, (regions m).Perm (r :: rs) ∧ r.pos = p ∧ len ≤ r.len
          ∧ (∀ s ∈ regions m, len ≤ s.len → r.len ≤ s.len)
          ∧ (regions m').Perm (r.rest len ++ rs)) := by
  rw [GetFreeSpacePos]
  rcases hl : m.lookup len with _ | offsets
  · rcases hf : firstGreater m len with _ | found
    · refine ⟨-1, m, rfl, hm, Or.inl ⟨rfl, rfl, fun r hr => ?_⟩⟩
      have hle := firstGreater_none hf r hr
      have hne : r.len ≠ len := by
        rintro rfl
        exact mem_regions_lookup hr hl
      omega
    · obtain ⟨hlt, offsets, ho⟩ := firstGreater_some hf
      obtain ⟨pos, hlast, hperm⟩ := getLast_spec hm ho
      obtain ⟨hreg, hself, hother⟩ := push_spec (m.insert found offsets.dropLast) (found - len)
        (pos + len)
      have hbuckets : ∀ len', len' ≠ found →
          (push (m.insert found offsets.dropLast) (found - len) (pos + len)).lookup len'
            ≠ some [] := by
        intro len' hlen'
        by_cases hl' : len' = found - len
        · rw [hl']
          exact hself
        · rw [hother len' hl']
          exact lookup_insert_dropLast hm _ len' hlen'
      obtain ⟨hreg', hne'⟩ := eraseIfEmpty_spec hbuckets
      refine ⟨pos, _, ?_, hne', Or.inr ⟨_, _, hperm, rfl, Int.le_of_lt hlt, ?_, ?_⟩⟩
      · simp only [ho, hlast, Option.bind_eq_bind, Option.bind_some]
        rfl
      · intro s hs hle
        have hne : len ≠ s.len := by
          rintro rfl
          exact mem_regions_lookup hs hl
        exact firstGreater_le hf hs (by omega)
      · rw [Region.rest, if_neg (show ¬ found = len by omega)]
        exact hreg'.trans hreg
  · obtain ⟨pos, hlast, hperm⟩ := getLast_spec hm hl
    obtain ⟨hreg', hne'⟩ := eraseIfEmpty_spec (lookup_insert_dropLast hm offsets.dropLast)
    refine ⟨pos, _, ?_, hne', Or.inr ⟨_, _, hperm, rfl, Int.le_refl len, fun s _ hle => hle, ?_⟩⟩
    · simp only [hlast, Option.bind_eq_bind, Option.bind_some]
      rfl
    · rw [Region.rest, if_pos rfl]
      exact hreg'

/-- Seen from outside, the file stays tiled. -/
theorem GetFreeSpacePos_spec (hm : NoEmptyBucket m) {len : Int} (hlen : 0 < len) {lo hi : Int}
    {other : List Region} (ht : Region.Tiles lo hi (regions m ++ other)) :
    ∃ p m', GetFreeSpacePos m len = some (p, m') ∧ NoEmptyBucket m'
      ∧ ((p = -1 ∧ m' = m ∧ ∀ r ∈ regions m, r.len < len)
        ∨ Region.Tiles lo hi (⟨p, len⟩ :: (regions m' ++ other))) := by
  obtain ⟨p, m', hget, hm', hcases⟩ := GetFreeSpacePos_cases hm len
  refine ⟨p, m', hget, hm', hcases.imp_right ?_⟩
  rintro ⟨r, rs, hperm, rfl, hle, -, hperm'⟩
  have htiles : Region.Tiles lo hi (r :: (rs ++ other)) := ht.perm (hperm.append_right other)
  refine (htiles.take hlen hle).perm (List.Perm.cons _ ?_)
  rw [← List.append_assoc]
  exact (hperm'.append_right other).symm

/-! ## Rebuilding the map from the index -/

/-- The last step of `LoadFreeSpaceFromIndexDef`. -/
def loadEnd (dataFileSize : Int) (st : Int × Int × Bool × FreeSpaceBlockMap) :
    Bool × FreeSpaceBlockMap :=
  if st.2.1 ≠ 0 then (st.2.2.1, AddFreeSpace st.2.2.2 (dataFileSize - st.2.1) st.2.1)
  else (st.2.2.1, st.2.2.2)

/-- Over entries that follow each other the loop adds their gaps. -/
theorem loadTurn_foldl {size : Int} (defs : List IndexDef) :
    ∀ (m : FreeSpaceBlockMap) (start : Int), NoEmptyBucket m → 0 ≤ start → start ≤ size →
      (∀ d ∈ defs, 0 < d.m_dataLen) →
      (∀ d ∈ defs, start ≤ d.region.pos ∧ d.region.stop ≤ size) →
      (defs.Pairwise fun d e => d.region.stop ≤ e.region.pos) →
      ∃ m', loadEnd size (defs.foldl loadTurn (start, size - start, true, m)) = (true, m')
        ∧ NoEmptyBucket m'
        ∧ (regions m').Perm (Region.gaps start size (defs.map IndexDef.region) ++ regions m) := by
  induction defs with
  | nil =>
    intro m start hm h0 hsize _ _ _
    rw [List.foldl_nil, loadEnd, List.map_nil, Region.gaps]
    by_cases hlt : start < size
    · have hsub : size - (size - start) = start := by omega
      have hlen : 0 < size - start := by omega
      obtain ⟨hreg, hne⟩ := AddFreeSpace_spec hm h0 hlen
      rw [if_pos (by show size - start ≠ 0; omega), if_pos hlt, hsub]
      exact ⟨_, rfl, hne, hreg⟩
    · rw [if_neg (by show ¬ size - start ≠ 0; omega), if_neg hlt]
      exact ⟨m, rfl, hm, List.Perm.refl _⟩
  | cons d defs ih =>
    intro m start hm h0 hsize hpos hin hord
    have hd : start ≤ d.m_dataPosition ∧ d.m_dataPosition + d.m_dataLen ≤ size :=
      hin d List.mem_cons_self
    have hdpos := hpos d List.mem_cons_self
    rw [List.pairwise_cons] at hord
    -- the map after this turn
    obtain ⟨m1, hturn, hm1, hreg1⟩ : ∃ m1, loadTurn (start, size - start, true, m) d
          = (d.region.stop, size - d.region.stop, true, m1) ∧ NoEmptyBucket m1
        ∧ (regions m1).Perm ((if start < d.region.pos then
            [(⟨start, d.region.pos - start⟩ : Region)] else []) ++ regions m) := by
      have hstart : start + (d.m_dataLen + (d.m_dataPosition - start)) = d.region.stop := by
        show _ = d.m_dataPosition + d.m_dataLen
        omega
      have htmp : size - start - (d.m_dataLen + (d.m_dataPosition - start))
          = size - d.region.stop := by
        show _ = size - (d.m_dataPosition + d.m_dataLen)
        omega
      by_cases hlt : start < d.m_dataPosition
      · have hlen : 0 < d.m_dataPosition - start := by omega
        obtain ⟨hreg, hne⟩ := AddFreeSpace_spec hm h0 hlen
        refine ⟨_, ?_, hne, ?_⟩
        · simp only [loadTurn, if_pos (show 0 < d.m_dataPosition - start by omega), hstart, htmp]
        · rw [if_pos (show start < d.region.pos from hlt)]
          exact hreg
      · refine ⟨m, ?_, hm, ?_⟩
        · simp only [loadTurn, if_neg (show ¬ 0 < d.m_dataPosition - start by omega),
            if_neg (show ¬ d.m_dataPosition - start < 0 by omega), hstart, htmp]
        · rw [if_neg (show ¬ start < d.region.pos from hlt)]
          exact List.Perm.refl _
    obtain ⟨m', hend, hm', hreg'⟩ := ih m1 d.region.stop hm1
      (by show 0 ≤ d.m_dataPosition + d.m_dataLen; omega) hd.2
      (fun e he => hpos e (List.mem_cons_of_mem _ he))
      (fun e he => ⟨hord.1 e he, (hin e (List.mem_cons_of_mem _ he)).2⟩) hord.2
    refine ⟨m', ?_, hm', ?_⟩
    · rw [List.foldl_cons, hturn]
      exact hend
    · rw [List.map_cons, Region.gaps]
      refine hreg'.trans ((hreg1.append_left _).trans ?_)
      rw [← List.append_assoc]
      exact List.perm_append_comm.append_right _

/-- The loop and its end over regions that do not overlap, sorted by position: the status
is true, and the free regions complete them to a tiling of the file. No two of these touch. -/
theorem loadEnd_spec {size : Int} {defs sorted : List IndexDef} (hperm : sorted.Perm defs)
    (hsorted : sorted.Pairwise IndexDef_le) (hsize : 0 ≤ size) (hpos : ∀ d ∈ defs, 0 < d.m_dataLen)
    (hin : ∀ d ∈ defs, 0 ≤ d.region.pos ∧ d.region.stop ≤ size)
    (hap : (defs.map IndexDef.region).Pairwise Region.Apart) :
    ∃ m, loadEnd size (sorted.foldl loadTurn (0, size, true, ∅)) = (true, m) ∧ NoEmptyBucket m
      ∧ Region.Tiles 0 size (regions m ++ defs.map IndexDef.region)
      ∧ (regions m).Pairwise Region.Clear := by
  have hpos' : ∀ d ∈ sorted, 0 < d.m_dataLen := fun d hd => hpos d (hperm.mem_iff.mp hd)
  have hin' : ∀ d ∈ sorted, 0 ≤ d.region.pos ∧ d.region.stop ≤ size :=
    fun d hd => hin d (hperm.mem_iff.mp hd)
  have hposr : ∀ r ∈ sorted.map IndexDef.region, 0 < r.len := by
    intro r hr
    obtain ⟨d, hd, rfl⟩ := List.mem_map.mp hr
    exact hpos' d hd
  have hinr : ∀ r ∈ sorted.map IndexDef.region, 0 ≤ r.pos ∧ r.stop ≤ size := by
    intro r hr
    obtain ⟨d, hd, rfl⟩ := List.mem_map.mp hr
    exact hin' d hd
  have hap' : (sorted.map IndexDef.region).Pairwise Region.Apart :=
    (hperm.map IndexDef.region).symm.pairwise hap fun h => h.symm
  have hord : (sorted.map IndexDef.region).Pairwise fun r s => r.stop ≤ s.pos :=
    Region.pairwise_stop_le hposr hap' (List.pairwise_map.mpr hsorted)
  obtain ⟨m, hend, hm, hreg⟩ := loadTurn_foldl sorted ∅ 0 noEmptyBucket_empty
    (Int.le_refl 0) hsize hpos' hin' (List.pairwise_map.mp hord)
  rw [regions_empty, List.append_nil] at hreg
  refine ⟨m, ?_, hm, ?_, ?_⟩
  · rw [Int.sub_zero] at hend
    exact hend
  · have ht := Region.tiles_gaps hsize hposr hinr hord
    exact ht.perm (hreg.symm.append (hperm.map _))
  · exact hreg.symm.pairwise (Region.gaps_clear hsize hposr hinr hord) fun h => h.symm

theorem LoadFreeSpaceFromIndexDef_spec {size : Int} {defs : List IndexDef} (hsize : 0 ≤ size)
    (hpos : ∀ d ∈ defs, 0 < d.m_dataLen)
    (hin : ∀ d ∈ defs, 0 ≤ d.region.pos ∧ d.region.stop ≤ size)
    (hap : (defs.map IndexDef.region).Pairwise Region.Apart) :
    ∃ m, LoadFreeSpaceFromIndexDef size defs = (true, m) ∧ NoEmptyBucket m
      ∧ Region.Tiles 0 size (regions m ++ defs.map IndexDef.region)
      ∧ (regions m).Pairwise Region.Clear :=
  loadEnd_spec (List.perm_insertionSort _ _) (List.pairwise_insertionSort _ _) hsize hpos hin hap

end FreeSpaceBlockMap

end TransDB
