/-
Half-open regions of a line, and lists of them that tile an interval.

`Tiles lo hi rs` says that the regions `rs` are non-empty, lie in `[lo, hi)`, do
not overlap and leave nothing out. It does not depend on the order of the list,
and it survives the three things an allocator does: cutting a region in two,
growing the interval at its end, and recomputing the unused regions as the gaps
between the used ones.
-/
import Mathlib.Algebra.BigOperators.Group.List.Basic
import Mathlib.Algebra.Ring.Int.Defs
import Mathlib.Data.List.Perm.Basic
import Mathlib.Data.List.Pairwise

set_option autoImplicit false

/-- The positions from `pos` to `pos + len`, the last excluded. -/
structure Region where
  pos : Int
  len : Int
  deriving DecidableEq, Repr

namespace Region

/-- The first position behind the region. -/
def stop (r : Region) : Int := r.pos + r.len

/-- The position lies in the region. -/
def Mem (p : Int) (r : Region) : Prop := r.pos ≤ p ∧ p < r.stop

/-- The regions do not overlap. -/
def Apart (r s : Region) : Prop := r.stop ≤ s.pos ∨ s.stop ≤ r.pos

theorem Apart.symm {r s : Region} (h : r.Apart s) : s.Apart r := Or.symm h

/-- The regions neither overlap nor touch. -/
def Clear (r s : Region) : Prop := r.stop < s.pos ∨ s.stop < r.pos

theorem Clear.symm {r s : Region} (h : r.Clear s) : s.Clear r := Or.symm h

/-- Regions apart have no position in common. -/
theorem Apart.not_mem {r s : Region} (h : r.Apart s) {p : Int} (hr : r.Mem p) : ¬ s.Mem p := by
  rintro ⟨hs1, hs2⟩
  rcases h with h | h
  · exact absurd hr.2 (by omega)
  · exact absurd hr.1 (by omega)

/-- The regions fill `[lo, hi)` without overlap. -/
structure Tiles (lo hi : Int) (rs : List Region) : Prop where
  pos : ∀ r ∈ rs, 0 < r.len
  inside : ∀ r ∈ rs, lo ≤ r.pos ∧ r.stop ≤ hi
  apart : rs.Pairwise Apart
  cover : ∀ p, lo ≤ p → p < hi → ∃ r ∈ rs, r.Mem p

namespace Tiles

variable {lo hi : Int} {rs ss : List Region}

theorem perm (h : Tiles lo hi rs) (hp : rs.Perm ss) : Tiles lo hi ss where
  pos r hr := h.pos r (hp.mem_iff.mpr hr)
  inside r hr := h.inside r (hp.mem_iff.mpr hr)
  apart := hp.pairwise h.apart (fun hrs => hrs.symm)
  cover p hlo hhi := by
    obtain ⟨r, hr, hm⟩ := h.cover p hlo hhi
    exact ⟨r, hp.mem_iff.mp hr, hm⟩

theorem nil (lo : Int) : Tiles lo lo [] where
  pos r hr := by cases hr
  inside r hr := by cases hr
  apart := List.Pairwise.nil
  cover p hlo hhi := by omega

theorem single {lo hi : Int} (h : lo < hi) : Tiles lo hi [⟨lo, hi - lo⟩] where
  pos r hr := by
    rw [List.mem_singleton.mp hr]
    show 0 < hi - lo
    omega
  inside r hr := by
    rw [List.mem_singleton.mp hr]
    refine ⟨Int.le_refl lo, ?_⟩
    show lo + (hi - lo) ≤ hi
    omega
  apart := List.pairwise_singleton _ _
  cover p hlo hhi := by
    refine ⟨_, List.mem_singleton_self _, hlo, ?_⟩
    show p < lo + (hi - lo)
    omega

/-- Two tilings side by side. -/
theorem append {mid : Int} (h : Tiles lo mid rs) (h' : Tiles mid hi ss) (hlo : lo ≤ mid)
    (hhi : mid ≤ hi) : Tiles lo hi (rs ++ ss) where
  pos r hr := by
    rcases List.mem_append.mp hr with hr | hr
    · exact h.pos r hr
    · exact h'.pos r hr
  inside r hr := by
    rcases List.mem_append.mp hr with hr | hr
    · have := h.inside r hr
      omega
    · have := h'.inside r hr
      omega
  apart := by
    refine List.pairwise_append.mpr ⟨h.apart, h'.apart, fun r hr s hs => Or.inl ?_⟩
    have h1 := h.inside r hr
    have h2 := h'.inside s hs
    omega
  cover p hplo hphi := by
    by_cases hp : p < mid
    · obtain ⟨r, hr, hm⟩ := h.cover p hplo hp
      exact ⟨r, List.mem_append_left _ hr, hm⟩
    · obtain ⟨r, hr, hm⟩ := h'.cover p (by omega) hphi
      exact ⟨r, List.mem_append_right _ hr, hm⟩

/-- Growing the interval by a region at its end. -/
theorem extend (h : Tiles lo hi rs) {n : Int} (hn : 0 < n) (hlo : lo ≤ hi) :
    Tiles lo (hi + n) (⟨hi, n⟩ :: rs) := by
  have hnew : Tiles hi (hi + n) [⟨hi, n⟩] := by
    have hlt : hi < hi + n := by omega
    have hs := single hlt
    have hlen : hi + n - hi = n := by omega
    rwa [hlen] at hs
  exact (h.append hnew hlo (by omega)).perm List.perm_append_comm

/-- Cutting a region in two. -/
theorem split {p n a : Int} (h : Tiles lo hi (⟨p, n⟩ :: rs)) (ha : 0 < a) (han : a < n) :
    Tiles lo hi (⟨p, a⟩ :: ⟨p + a, n - a⟩ :: rs) where
  pos r hr := by
    rcases List.mem_cons.mp hr with rfl | hr
    · exact ha
    rcases List.mem_cons.mp hr with rfl | hr
    · show 0 < n - a
      omega
    · exact h.pos r (List.mem_cons_of_mem _ hr)
  inside r hr := by
    have h0 : lo ≤ p ∧ p + n ≤ hi := h.inside ⟨p, n⟩ List.mem_cons_self
    rcases List.mem_cons.mp hr with rfl | hr
    · refine ⟨h0.1, ?_⟩
      show p + a ≤ hi
      omega
    rcases List.mem_cons.mp hr with rfl | hr
    · refine ⟨?_, ?_⟩
      · show lo ≤ p + a
        omega
      · show p + a + (n - a) ≤ hi
        omega
    · exact h.inside r (List.mem_cons_of_mem _ hr)
  apart := by
    have hap := List.pairwise_cons.mp h.apart
    have hcut : ∀ r ∈ rs, r.Apart ⟨p, a⟩ ∧ r.Apart ⟨p + a, n - a⟩ := by
      intro r hr
      have h0 : p + n ≤ r.pos ∨ r.stop ≤ p := hap.1 r hr
      constructor
      · show r.stop ≤ p ∨ p + a ≤ r.pos
        omega
      · show r.stop ≤ p + a ∨ p + a + (n - a) ≤ r.pos
        omega
    refine List.pairwise_cons.mpr ⟨?_, List.pairwise_cons.mpr ⟨?_, hap.2⟩⟩
    · intro r hr
      rcases List.mem_cons.mp hr with rfl | hr
      · exact Or.inl (Int.le_refl _)
      · exact (hcut r hr).1.symm
    · intro r hr
      exact (hcut r hr).2.symm
  cover x hxlo hxhi := by
    obtain ⟨r, hr, hm⟩ := h.cover x hxlo hxhi
    rcases List.mem_cons.mp hr with rfl | hr
    · have hm' : p ≤ x ∧ x < p + n := hm
      by_cases hx : x < p + a
      · exact ⟨_, List.mem_cons_self, hm'.1, hx⟩
      · refine ⟨_, List.mem_cons_of_mem _ List.mem_cons_self, ?_, ?_⟩
        · show p + a ≤ x
          omega
        · show x < p + a + (n - a)
          omega
    · exact ⟨r, List.mem_cons_of_mem _ (List.mem_cons_of_mem _ hr), hm⟩

/-- What the rest of a tiling leaves over does not depend on how it is cut up. -/
theorem mem_iff {us : List Region} (h : Tiles lo hi (rs ++ us)) (h' : Tiles lo hi (ss ++ us))
    (p : Int) : (∃ r ∈ rs, r.Mem p) ↔ ∃ s ∈ ss, s.Mem p := by
  have hone : ∀ {as bs : List Region}, Tiles lo hi (as ++ us) → Tiles lo hi (bs ++ us) →
      (∃ a ∈ as, a.Mem p) → ∃ b ∈ bs, b.Mem p := by
    rintro as bs ha hb ⟨a, hmem, hp⟩
    have hin := ha.inside a (List.mem_append_left _ hmem)
    obtain ⟨b, hbmem, hbp⟩ := hb.cover p (Int.le_trans hin.1 hp.1) (Int.lt_of_lt_of_le hp.2 hin.2)
    rcases List.mem_append.mp hbmem with hbs | hus
    · exact ⟨b, hbs, hbp⟩
    · have hap := (List.pairwise_append.mp ha.apart).2.2 a hmem b hus
      exact absurd hbp (hap.not_mem hp)
  exact ⟨hone h h', hone h' h⟩

/-- A region of a tiling is apart from those that come after it. -/
theorem apart_of_mem {r s : Region} (h : Tiles lo hi (rs ++ r :: ss)) (hs : s ∈ ss) : s.Apart r := by
  have hsuff := (List.pairwise_append.mp h.apart).2.1
  exact ((List.pairwise_cons.mp hsuff).1 s hs).symm

/-- The first region, and the rest. -/
theorem first (h : Tiles lo hi rs) (hlt : lo < hi) : ∃ r ∈ rs, r.pos = lo ∧ r.stop ≤ hi
    ∧ Tiles r.stop hi (rs.erase r) := by
  obtain ⟨r, hr, hlo, hstop⟩ := h.cover lo (Int.le_refl lo) hlt
  obtain ⟨hinside, hend⟩ := h.inside r hr
  have hpos : r.pos = lo := by omega
  have hperm := List.perm_cons_erase hr
  have hsplit := h.perm hperm
  have hbehind : ∀ s ∈ rs.erase r, r.stop ≤ s.pos := by
    intro s hs
    have hs' := List.mem_of_mem_erase hs
    have hs0 := h.pos s hs'
    have hs1 := h.inside s hs'
    rcases List.rel_of_pairwise_cons hsplit.apart hs with hle | hle
    · exact hle
    · rw [stop] at hle
      omega
  refine ⟨r, hr, hpos, hend, ?_, ?_, ?_, ?_⟩
  · exact fun s hs => h.pos s (List.mem_of_mem_erase hs)
  · exact fun s hs => ⟨hbehind s hs, (h.inside s (List.mem_of_mem_erase hs)).2⟩
  · exact List.Pairwise.of_cons hsplit.apart
  · intro p hp hphi
    obtain ⟨s, hs, hm⟩ := hsplit.cover p (by omega) hphi
    rcases List.mem_cons.mp hs with rfl | hs
    · have hlt := hm.2
      omega
    · exact ⟨s, hs, hm⟩

/-- The lengths add up to the length of the interval. -/
theorem sum_len (h : Tiles lo hi rs) (hle : lo ≤ hi) : (rs.map Region.len).sum = hi - lo := by
  generalize hn : rs.length = n
  induction n generalizing lo rs with
  | zero =>
    obtain rfl := List.eq_nil_of_length_eq_zero hn
    by_contra hne
    rw [List.map_nil, List.sum_nil] at hne
    obtain ⟨r, hr, -⟩ := h.cover lo (Int.le_refl lo) (by omega)
    cases hr
  | succ n ih =>
    have hlt : lo < hi := by
      obtain ⟨r, hr⟩ := List.exists_mem_of_length_pos (by omega : 0 < rs.length)
      have hpos := h.pos r hr
      obtain ⟨h1, h2⟩ := h.inside r hr
      rw [stop] at h2
      omega
    obtain ⟨r, hr, hpos, hend, hrest⟩ := h.first hlt
    have hsum := ih hrest hend (by rw [List.length_erase_of_mem hr, hn]; rfl)
    have hstop : r.stop = r.pos + r.len := rfl
    rw [((List.perm_cons_erase hr).map Region.len).sum_eq, List.map_cons, List.sum_cons, hsum]
    omega

end Tiles

/-! ## Taking the front of a region -/

/-- Some region of the list has the position. -/
def Covers (rs : List Region) (p : Int) : Prop := ∃ r ∈ rs, r.Mem p

theorem covers_perm {rs ss : List Region} (h : rs.Perm ss) (p : Int) : Covers rs p ↔ Covers ss p := by
  constructor
  · rintro ⟨r, hr, hp⟩
    exact ⟨r, h.mem_iff.mp hr, hp⟩
  · rintro ⟨r, hr, hp⟩
    exact ⟨r, h.mem_iff.mpr hr, hp⟩

theorem covers_cons {r : Region} {rs : List Region} {p : Int} :
    Covers (r :: rs) p ↔ r.Mem p ∨ Covers rs p := by
  simp only [Covers, List.mem_cons, or_and_right, exists_or, exists_eq_left]

theorem covers_append {rs ss : List Region} {p : Int} :
    Covers (rs ++ ss) p ↔ Covers rs p ∨ Covers ss p := by
  simp only [Covers, List.mem_append, or_and_right, exists_or]

/-- What is left of a region when its first `a` positions are taken. -/
def rest (r : Region) (a : Int) : List Region :=
  if r.len = a then [] else [⟨r.pos + a, r.len - a⟩]

theorem mem_rest {r s : Region} {a : Int} (hs : s ∈ r.rest a) :
    s.pos = r.pos + a ∧ s.stop = r.stop ∧ s.len = r.len - a ∧ r.len ≠ a := by
  rw [rest] at hs
  split at hs
  · cases hs
  · rename_i hne
    rw [List.mem_singleton.mp hs]
    refine ⟨rfl, ?_, rfl, hne⟩
    show r.pos + a + (r.len - a) = r.pos + r.len
    omega

theorem covers_rest {r : Region} {a p : Int} (ha : 0 < a) :
    Covers (r.rest a) p ↔ r.Mem p ∧ ¬ Mem p ⟨r.pos, a⟩ := by
  rw [rest]
  split
  · rename_i heq
    have hr : r = ⟨r.pos, a⟩ := by rw [← heq]
    constructor
    · rintro ⟨s, hs, -⟩
      cases hs
    · rintro ⟨h, hnot⟩
      rw [← hr] at hnot
      exact absurd h hnot
  · constructor
    · rintro ⟨s, hs, hp⟩
      rw [List.mem_singleton.mp hs] at hp
      have hp' : r.pos + a ≤ p ∧ p < r.pos + a + (r.len - a) := hp
      refine ⟨⟨by omega, ?_⟩, fun hfront => ?_⟩
      · show p < r.pos + r.len
        omega
      · have hlt : p < r.pos + a := hfront.2
        omega
    · rintro ⟨⟨hlo, hhi⟩, hnot⟩
      have hhi' : p < r.pos + r.len := hhi
      have hge : ¬ p < r.pos + a := fun hlt => hnot ⟨hlo, hlt⟩
      refine ⟨_, List.mem_singleton_self _, ?_, ?_⟩
      · show r.pos + a ≤ p
        omega
      · show p < r.pos + a + (r.len - a)
        omega

variable {r : Region} {rs : List Region} {a : Int}

/-- Taking the front of a region of a list takes exactly these positions out. -/
theorem covers_take (h : (r :: rs).Pairwise Apart) (ha : 0 < a) (hle : a ≤ r.len) (p : Int) :
    Covers (r.rest a ++ rs) p ↔ Covers (r :: rs) p ∧ ¬ Mem p ⟨r.pos, a⟩ := by
  rw [covers_append, covers_rest ha, covers_cons]
  constructor
  · rintro (⟨hr, hnot⟩ | ⟨s, hs, hp⟩)
    · exact ⟨Or.inl hr, hnot⟩
    · refine ⟨Or.inr ⟨s, hs, hp⟩, fun hfront => ?_⟩
      have hr : r.Mem p := ⟨hfront.1, Int.lt_of_lt_of_le hfront.2 (Int.add_le_add_left hle _)⟩
      exact ((List.pairwise_cons.mp h).1 s hs).not_mem hr hp
  · rintro ⟨hr | hs, hnot⟩
    · exact Or.inl ⟨hr, hnot⟩
    · exact Or.inr hs

/-- What is left does not overlap. -/
theorem apart_take (h : (r :: rs).Pairwise Apart) (ha : 0 < a) :
    (r.rest a ++ rs).Pairwise Apart := by
  rw [List.pairwise_cons] at h
  refine List.pairwise_append.mpr ⟨?_, h.2, fun s hs t ht => ?_⟩
  · rw [rest]
    split
    · exact List.Pairwise.nil
    · exact List.pairwise_singleton _ _
  · obtain ⟨hpos, hstop, -⟩ := mem_rest hs
    rcases h.1 t ht with hrt | htr
    · exact Or.inl (by rw [hstop]; exact hrt)
    · exact Or.inr (by rw [hpos]; omega)

/-- A tiling with the front of a region cut off. -/
theorem Tiles.take {lo hi : Int} (h : Tiles lo hi (r :: rs)) (ha : 0 < a) (hle : a ≤ r.len) :
    Tiles lo hi (⟨r.pos, a⟩ :: (r.rest a ++ rs)) := by
  by_cases hlen : r.len = a
  · have hr : (⟨r.pos, a⟩ : Region) = r := by rw [← hlen]
    rw [rest, if_pos hlen, hr]
    exact h
  · rw [rest, if_neg hlen]
    exact h.split ha (by omega)

/-! ## Gaps -/

/-- The regions from `lo` to `hi` that the regions of a list, in order, leave
unused. -/
def gaps (lo hi : Int) : List Region → List Region
  | [] => if lo < hi then [⟨lo, hi - lo⟩] else []
  | r :: rs => (if lo < r.pos then [⟨lo, r.pos - lo⟩] else []) ++ gaps r.stop hi rs

/-- The gap in front of a region. -/
theorem tiles_gap {lo mid : Int} (h : lo ≤ mid) :
    Tiles lo mid (if lo < mid then [⟨lo, mid - lo⟩] else []) := by
  by_cases hlt : lo < mid
  · rw [if_pos hlt]
    exact Tiles.single hlt
  · rw [if_neg hlt]
    have heq : lo = mid := by omega
    rw [heq]
    exact Tiles.nil mid

/-- Used regions in order, together with their gaps, tile the interval. -/
theorem tiles_gaps {lo hi : Int} {used : List Region} (hlohi : lo ≤ hi)
    (hpos : ∀ r ∈ used, 0 < r.len) (hin : ∀ r ∈ used, lo ≤ r.pos ∧ r.stop ≤ hi)
    (hord : used.Pairwise fun r s => r.stop ≤ s.pos) :
    Tiles lo hi (gaps lo hi used ++ used) := by
  induction used generalizing lo with
  | nil =>
    rw [gaps, List.append_nil]
    exact tiles_gap hlohi
  | cons r used ih =>
    have hr := hin r List.mem_cons_self
    have hrpos := hpos r List.mem_cons_self
    rw [List.pairwise_cons] at hord
    have hrest := ih hr.2 (fun s hs => hpos s (List.mem_cons_of_mem _ hs))
      (fun s hs => ⟨hord.1 s hs, (hin s (List.mem_cons_of_mem _ hs)).2⟩) hord.2
    have hmid : Tiles r.pos r.stop [r] := by
      have hlen : r.stop - r.pos = r.len := by
        rw [stop]
        omega
      have hlt : r.pos < r.stop := by rw [stop]; omega
      have hs := Tiles.single hlt
      rwa [hlen] at hs
    have hall := ((tiles_gap hr.1).append hmid hr.1 (by rw [stop]; omega)).append hrest
      (by rw [stop]; omega) hr.2
    refine hall.perm ?_
    rw [gaps, List.append_assoc, List.append_assoc]
    refine List.Perm.append_left _ ?_
    rw [List.singleton_append]
    exact List.perm_middle.symm

/-- There is a used region between any two gaps. -/
theorem gaps_clear {lo hi : Int} {used : List Region} (hlohi : lo ≤ hi)
    (hpos : ∀ r ∈ used, 0 < r.len) (hin : ∀ r ∈ used, lo ≤ r.pos ∧ r.stop ≤ hi)
    (hord : used.Pairwise fun r s => r.stop ≤ s.pos) : (gaps lo hi used).Pairwise Clear := by
  induction used generalizing lo with
  | nil =>
    rw [gaps]
    split
    · exact List.pairwise_singleton _ _
    · exact List.Pairwise.nil
  | cons r used ih =>
    have hr := hin r List.mem_cons_self
    have hrpos := hpos r List.mem_cons_self
    rw [List.pairwise_cons] at hord
    have hpos' : ∀ s ∈ used, 0 < s.len := fun s hs => hpos s (List.mem_cons_of_mem _ hs)
    have hin' : ∀ s ∈ used, r.stop ≤ s.pos ∧ s.stop ≤ hi :=
      fun s hs => ⟨hord.1 s hs, (hin s (List.mem_cons_of_mem _ hs)).2⟩
    have hrest := (tiles_gaps hr.2 hpos' hin' hord.2).inside
    rw [gaps]
    refine List.pairwise_append.mpr ⟨?_, ih hr.2 hpos' hin' hord.2, ?_⟩
    · split
      · exact List.pairwise_singleton _ _
      · exact List.Pairwise.nil
    · intro g hg s hs
      have hsin := hrest s (List.mem_append_left _ hs)
      split at hg
      · left
        rw [List.mem_singleton.mp hg]
        rw [stop] at hsin
        show lo + (r.pos - lo) < s.pos
        omega
      · cases hg

/-- Regions that do not overlap, sorted by position, follow each other. -/
theorem pairwise_stop_le {rs : List Region} (hpos : ∀ r ∈ rs, 0 < r.len)
    (hap : rs.Pairwise Apart) (hsort : rs.Pairwise fun r s => r.pos ≤ s.pos) :
    rs.Pairwise fun r s => r.stop ≤ s.pos := by
  refine List.Pairwise.imp_of_mem ?_ (hap.and hsort)
  intro r s _ hs h
  rcases h.1 with h1 | h1
  · exact h1
  · have hslen := hpos s hs
    have hsr := h.2
    rw [stop] at h1
    omega

end Region
