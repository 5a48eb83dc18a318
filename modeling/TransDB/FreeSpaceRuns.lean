/-
The free space over any sequence of `AddFreeSpace` and `GetFreeSpacePos`.

The map is an allocator of regions: what it is given is free, what it hands out is free no
more, and nothing is free twice. What the two functions do to the list of the free regions
is known from `FreeSpace`; here it is put in terms of the single bytes that are free, and
carried over whole runs.

The functions add and subtract in `int64`. No sum wraps as long as every region ends where an
`int64` can hold its end, and the file the regions are of ends there too.
-/
import TransDB.FreeSpaceLoad

set_option autoImplicit false

namespace TransDB

namespace FreeSpaceBlockMap

/-- `DiskWriter::GetFreeSpacePos` in `int64`: the position, or -1. -/
def GetFreeSpacePos64 (rFreeSpace : FreeSpaceBlockMap) (lenght : Int) :
    Option (Int × FreeSpaceBlockMap) :=
  match rFreeSpace.lookup lenght with
  | some offsets => do
    let returnPos ← offsets.getLast?
    let rFreeSpace := rFreeSpace.insert lenght offsets.dropLast
    return (returnPos, eraseIfEmpty rFreeSpace lenght)
  | none =>
    match firstGreater rFreeSpace lenght with
    | some found => do
      let offsets ← rFreeSpace.lookup found
      --get 1st position and remove from list
      let returnPos ← offsets.getLast?
      let rFreeSpace := rFreeSpace.insert found offsets.dropLast
      let newSize := s64 (found - lenght)
      let newPos := s64 (returnPos + lenght)
      --update or add new position
      let rFreeSpace := push rFreeSpace newSize newPos
      return (returnPos, eraseIfEmpty rFreeSpace found)
    | none => some (-1, rFreeSpace)

/-- The maps that come from the empty one by adding regions that overlap no free one and
by taking free space. The end of a region is an `int64`. -/
inductive Built : FreeSpaceBlockMap → Prop
  | empty : Built ∅
  | add (m : FreeSpaceBlockMap) (pos lenght : Int) (hm : Built m) (hlen : 0 < lenght)
    (hend : pos + lenght ≤ 2 ^ 63 - 1)
    (hap : ∀ r ∈ regions m, Region.Apart ⟨pos, lenght⟩ r) : Built (AddFreeSpace m pos lenght)
  | get (m m' : FreeSpaceBlockMap) (lenght p : Int) (hm : Built m) (hlen : 0 < lenght)
    (hg : GetFreeSpacePos64 m lenght = some (p, m')) : Built m'

/-- The byte is in a free region. -/
def Free (m : FreeSpaceBlockMap) (q : Int) : Prop := Region.Covers (regions m) q

/-- What holds of the map between any two calls. -/
structure Inv (m : FreeSpaceBlockMap) : Prop where
  buckets : NoEmptyBucket m
  apart : (regions m).Pairwise Region.Apart
  pos : ∀ r ∈ regions m, 0 ≤ r.pos ∧ 0 < r.len
  stop : ∀ r ∈ regions m, r.stop ≤ 2 ^ 63 - 1

variable {m m' : FreeSpaceBlockMap} {pos lenght p : Int}

theorem Inv.empty : Inv ∅ where
  buckets := noEmptyBucket_empty
  apart := List.Pairwise.nil
  pos r hr := by cases hr
  stop r hr := by cases hr

/-- A region at a negative position is refused. -/
theorem AddFreeSpace_neg (m : FreeSpaceBlockMap) (lenght : Int) (hpos : pos < 0) :
    AddFreeSpace m pos lenght = m := if_pos (Or.inl hpos)

theorem Inv.add (h : Inv m) (hlen : 0 < lenght) (hend : pos + lenght ≤ 2 ^ 63 - 1)
    (hap : ∀ r ∈ regions m, Region.Apart ⟨pos, lenght⟩ r) : Inv (AddFreeSpace m pos lenght) := by
  by_cases hpos : pos < 0
  · rw [AddFreeSpace_neg m lenght hpos]
    exact h
  have hpos' : 0 ≤ pos := Int.not_lt.mp hpos
  obtain ⟨hperm, hbuckets⟩ := AddFreeSpace_spec h.buckets hpos' hlen
  refine ⟨hbuckets, ?_, fun r hr => ?_, fun r hr => ?_⟩
  · exact hperm.symm.pairwise (List.pairwise_cons.mpr ⟨hap, h.apart⟩) fun hrs => hrs.symm
  · rcases List.mem_cons.mp (hperm.mem_iff.mp hr) with rfl | hr
    · exact ⟨hpos', hlen⟩
    · exact h.pos r hr
  · rcases List.mem_cons.mp (hperm.mem_iff.mp hr) with rfl | hr
    · exact hend
    · exact h.stop r hr

theorem free_add (h : Inv m) (hpos : 0 ≤ pos) (hlen : 0 < lenght) (q : Int) :
    Free (AddFreeSpace m pos lenght) q ↔ Free m q ∨ Region.Mem q ⟨pos, lenght⟩ := by
  rw [Free, Region.covers_perm (AddFreeSpace_spec h.buckets hpos hlen).1, Region.covers_cons, Free,
    or_comm]

/-- What is left of the regions when one gives up its front. -/
theorem Inv.take (h : Inv m) {r : Region} {rs : List Region} (hlen : 0 < lenght)
    (hperm : (regions m).Perm (r :: rs)) (hle : lenght ≤ r.len) (hbuckets : NoEmptyBucket m')
    (hperm' : (regions m').Perm (r.rest lenght ++ rs)) : Inv m' := by
  have hap : (r :: rs).Pairwise Region.Apart := hperm.pairwise h.apart fun hrs => hrs.symm
  have hr : r ∈ regions m := hperm.mem_iff.mpr List.mem_cons_self
  refine ⟨hbuckets, ?_, fun s hs => ?_, fun s hs => ?_⟩
  · exact hperm'.symm.pairwise (Region.apart_take hap hlen) fun hrs => hrs.symm
  · rcases List.mem_append.mp (hperm'.mem_iff.mp hs) with hs | hs
    · obtain ⟨hspos, -, hslen, hne⟩ := Region.mem_rest hs
      have hpos := h.pos r hr
      omega
    · exact h.pos s (hperm.mem_iff.mpr (List.mem_cons_of_mem _ hs))
  · rcases List.mem_append.mp (hperm'.mem_iff.mp hs) with hs | hs
    · obtain ⟨-, hstop, -, -⟩ := Region.mem_rest hs
      rw [hstop]
      exact h.stop r hr
    · exact h.stop s (hperm.mem_iff.mpr (List.mem_cons_of_mem _ hs))

/-- Nothing wraps: what is left of a region begins before its end. -/
theorem Inv.getFreeSpacePos64 (h : Inv m) (hlen : 0 < lenght) :
    GetFreeSpacePos64 m lenght = GetFreeSpacePos m lenght := by
  rw [GetFreeSpacePos64, GetFreeSpacePos]
  rcases hl : m.lookup lenght with _ | offsets
  · rcases hf : firstGreater m lenght with _ | found
    · rfl
    obtain ⟨hlt, offsets, ho⟩ := firstGreater_some hf
    obtain ⟨pos, hlast, hperm⟩ := getLast_spec h.buckets ho
    have hmem : (⟨pos, found⟩ : Region) ∈ regions m := hperm.mem_iff.mpr List.mem_cons_self
    have hpos : 0 ≤ pos := (h.pos _ hmem).1
    have hstop : pos + found ≤ 2 ^ 63 - 1 := h.stop _ hmem
    have hsize : s64 (found - lenght) = found - lenght := s64_of_range (by omega) (by omega)
    have hnext : s64 (pos + lenght) = pos + lenght := s64_of_range (by omega) (by omega)
    simp only [ho, hlast, Option.bind_eq_bind, Option.bind_some, hsize, hnext]
  · rfl

/-- `GetFreeSpacePos` took `[p, p + lenght)` out of a region of the smallest length that is
enough, and nothing else. -/
structure Took (m m' : FreeSpaceBlockMap) (lenght p : Int) : Prop where
  best : ∃ r ∈ regions m, r.pos ≤ p ∧ p + lenght ≤ r.stop
    ∧ ∀ s ∈ regions m, lenght ≤ s.len → r.len ≤ s.len
  free : ∀ q, Free m' q ↔ Free m q ∧ ¬ (p ≤ q ∧ q < p + lenght)

/-- What one call of `GetFreeSpacePos` does. -/
theorem Inv.get (h : Inv m) (hlen : 0 < lenght) :
    ∃ p m', GetFreeSpacePos64 m lenght = some (p, m') ∧ Inv m'
      ∧ (p = -1 ∧ m' = m ∧ (∀ r ∈ regions m, r.len < lenght)
        ∨ p ≠ -1 ∧ (∃ r ∈ regions m, lenght ≤ r.len) ∧ Took m m' lenght p) := by
  obtain ⟨p, m', hget, hbuckets, hcases⟩ := GetFreeSpacePos_cases h.buckets lenght
  refine ⟨p, m', (h.getFreeSpacePos64 hlen).trans hget, ?_⟩
  rcases hcases with ⟨rfl, rfl, hshort⟩ | ⟨r, rs, hperm, rfl, hle, hbest, hperm'⟩
  · exact ⟨h, Or.inl ⟨rfl, rfl, hshort⟩⟩
  have hmem : r ∈ regions m := hperm.mem_iff.mpr List.mem_cons_self
  have hap : (r :: rs).Pairwise Region.Apart := hperm.pairwise h.apart fun hrs => hrs.symm
  refine ⟨h.take hlen hperm hle hbuckets hperm', Or.inr ⟨?_, ⟨r, hmem, hle⟩, ?_, fun q => ?_⟩⟩
  · have hpos := (h.pos r hmem).1
    omega
  · refine ⟨r, hmem, Int.le_refl _, ?_, hbest⟩
    show r.pos + lenght ≤ r.pos + r.len
    omega
  · rw [Free, Region.covers_perm hperm', Region.covers_take hap hlen hle, Free,
      Region.covers_perm hperm]
    rfl

theorem Built.inv (h : Built m) : Inv m := by
  induction h with
  | empty => exact Inv.empty
  | add m pos lenght _ hlen hend hap ih => exact ih.add hlen hend hap
  | get m m' lenght p _ hlen hg ih =>
    obtain ⟨p', m1, hget, hinv, -⟩ := ih.get hlen
    rw [hg] at hget
    cases hget
    exact hinv

/-- Nothing is lost and nothing is free twice. -/
structure Conserves (m : FreeSpaceBlockMap) : Prop where
  buckets : NoEmptyBucket m
  apart : (regions m).Pairwise Region.Apart
  /-- What is added is free, with what was free before. -/
  add : ∀ pos lenght, 0 ≤ pos → 0 < lenght → ∀ q,
    Free (AddFreeSpace m pos lenght) q ↔ Free m q ∨ Region.Mem q ⟨pos, lenght⟩
  /-- -1 if no region is long enough, and then nothing changes. -/
  get : ∀ lenght, 0 < lenght → ∃ p m', GetFreeSpacePos64 m lenght = some (p, m')
    ∧ (p = -1 ↔ ∀ r ∈ regions m, r.len < lenght)
    ∧ (p = -1 → m' = m)
    ∧ (p ≠ -1 → Took m m' lenght p)

theorem allocator_conserves (h : Built m) : Conserves m where
  buckets := h.inv.buckets
  apart := h.inv.apart
  add pos lenght hpos hlen q := free_add h.inv hpos hlen q
  get lenght hlen := by
    obtain ⟨p, m', hget, -, hcases⟩ := h.inv.get hlen
    refine ⟨p, m', hget, ?_⟩
    rcases hcases with ⟨rfl, rfl, hshort⟩ | ⟨hp, ⟨r, hr, hle⟩, htook⟩
    · exact ⟨⟨fun _ => hshort, fun _ => rfl⟩, fun _ => rfl, fun hne => absurd rfl hne⟩
    · refine ⟨⟨fun heq => absurd heq hp, fun hshort => ?_⟩, fun heq => absurd heq hp,
        fun _ => htook⟩
      have hlt := hshort r hr
      omega

/-- Two free regions, the first of them up to the end of what an `int64` can hold: the call
takes the front of it, since the other is shorter. -/
theorem allocator_conserves_split :
    ∃ m', GetFreeSpacePos64 (AddFreeSpace (AddFreeSpace ∅ (2 ^ 63 - 20481) 20480) 4096 8192) 12288
        = some (2 ^ 63 - 20481, m') ∧ Conserves m' := by
  have hfirst : Built (AddFreeSpace ∅ (2 ^ 63 - 20481) 20480) :=
    .add ∅ _ _ .empty (by decide) (by decide) fun r hr => by cases hr
  have hbuilt : Built (AddFreeSpace (AddFreeSpace ∅ (2 ^ 63 - 20481) 20480) 4096 8192) := by
    refine .add _ _ _ hfirst (by decide) (by decide) fun r hr => ?_
    rw [List.mem_singleton.mp (show r ∈ [(⟨2 ^ 63 - 20481, 20480⟩ : Region)] from hr)]
    exact Or.inl (by decide)
  obtain ⟨m', hget⟩ : ∃ m', GetFreeSpacePos64
      (AddFreeSpace (AddFreeSpace ∅ (2 ^ 63 - 20481) 20480) 4096 8192) 12288
        = some (2 ^ 63 - 20481, m') := ⟨_, rfl⟩
  exact ⟨m', hget, allocator_conserves (.get _ m' 12288 _ hbuilt (by decide) hget)⟩

end FreeSpaceBlockMap

end TransDB
