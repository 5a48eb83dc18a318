/-
The `n` largest elements of a growing set.

`Largest n W T` says that `T` is what a store of `n` places should hold when the
elements of `W` have come by. An element that comes next is skipped, takes a free
place or replaces an element that is there, and each of these keeps `Largest`
under one condition, which is also necessary.
-/
import Mathlib.Data.Finset.Card
import Mathlib.Order.Defs.LinearOrder

set_option autoImplicit false

variable {α : Type} [LinearOrder α] {n : ℕ} {W T : Finset α} {a x : α}

/-- `T` is the `n` largest elements of `W`, or all of them if there are fewer. -/
structure Largest (n : ℕ) (W T : Finset α) : Prop where
  subset : T ⊆ W
  card : T.card = min n W.card
  above : ∀ t ∈ T, ∀ b ∈ W, b ∉ T → b < t

namespace Largest

theorem empty (n : ℕ) : Largest n (∅ : Finset α) ∅ :=
  ⟨Finset.Subset.refl _, (Nat.min_zero n).symm, fun _ ht => absurd ht (Finset.notMem_empty _)⟩

theorem card_le (h : Largest n W T) : T.card ≤ n := h.card ▸ Nat.min_le_left _ _

/-- As long as there are free places nothing is left out. -/
theorem eq_of_card_lt (h : Largest n W T) (hlt : T.card < n) : T = W := by
  refine Finset.eq_of_subset_of_card_le h.subset ?_
  have hcard := h.card
  omega

theorem insert_mem (h : Largest n W T) (ha : a ∈ T) : Largest n (insert a W) (insert a T) := by
  rwa [Finset.insert_eq_of_mem ha, Finset.insert_eq_of_mem (h.subset ha)]

/-- An element that takes a free place. -/
theorem insert_room (h : Largest n W T) (hlt : T.card < n) :
    Largest n (insert a W) (insert a T) := by
  have heq := h.eq_of_card_lt hlt
  subst heq
  refine ⟨Finset.Subset.refl _, ?_, fun t ht b hb hnot => absurd hb hnot⟩
  have hle := Finset.card_insert_le a T
  omega

section Full

variable (h : Largest n W T) (hfull : T.card = n)

include h hfull

theorem card_insert : min n (insert a W).card = n := by
  have hcard := h.card
  have hle := Finset.card_le_card (Finset.subset_insert a W)
  omega

/-- To skip an element is right when it is below all that are there. -/
theorem skip_iff (ha : a ∉ T) : Largest n (insert a W) T ↔ ∀ t ∈ T, a < t := by
  constructor
  · intro h' t ht
    exact h'.above t ht a (Finset.mem_insert_self a W) ha
  · intro hbelow
    refine ⟨h.subset.trans (Finset.subset_insert a W), ?_, fun t ht b hb hnot => ?_⟩
    · rw [h.card_insert hfull, hfull]
    · rcases Finset.mem_insert.mp hb with rfl | hb
      · exact hbelow t ht
      · exact h.above t ht b hb hnot

/-- To replace an element is right when it is the smallest, and below the new one. -/
theorem replace_iff (ha : a ∉ T) (hx : x ∈ T) :
    Largest n (insert a W) (insert a (T.erase x)) ↔ x < a ∧ ∀ t ∈ T, x ≤ t := by
  have hxa : x ≠ a := fun heq => ha (heq ▸ hx)
  have hout : x ∉ insert a (T.erase x) := by
    rw [Finset.mem_insert, not_or]
    exact ⟨hxa, Finset.notMem_erase x T⟩
  constructor
  · intro h'
    have hlt : ∀ t ∈ insert a (T.erase x), x < t := fun t ht =>
      h'.above t ht x (Finset.mem_insert_of_mem (h.subset hx)) hout
    refine ⟨hlt a (Finset.mem_insert_self _ _), fun t ht => ?_⟩
    by_cases heq : t = x
    · exact le_of_eq heq.symm
    · exact le_of_lt (hlt t (Finset.mem_insert_of_mem (Finset.mem_erase.mpr ⟨heq, ht⟩)))
  · rintro ⟨hlt, hmin⟩
    refine ⟨Finset.insert_subset_insert a ((Finset.erase_subset x T).trans h.subset), ?_, ?_⟩
    · have hnew : a ∉ T.erase x := fun hm => ha (Finset.mem_of_mem_erase hm)
      rw [h.card_insert hfull, Finset.card_insert_of_notMem hnew, Finset.card_erase_of_mem hx]
      have hpos := Finset.card_pos.mpr ⟨x, hx⟩
      omega
    · intro t ht b hb hnot
      have hbx : b ≤ x := by
        rcases Finset.mem_insert.mp hb with rfl | hb
        · exact absurd (Finset.mem_insert_self _ _) hnot
        · by_cases hbT : b ∈ T
          · by_contra hne
            refine hnot (Finset.mem_insert_of_mem (Finset.mem_erase.mpr ⟨?_, hbT⟩))
            rintro rfl
            exact hne (le_refl _)
          · exact le_of_lt (h.above x hx b hb hbT)
      rcases Finset.mem_insert.mp ht with rfl | ht
      · exact lt_of_le_of_lt hbx hlt
      · obtain ⟨hne, htT⟩ := Finset.mem_erase.mp ht
        exact lt_of_le_of_lt hbx (lt_of_le_of_ne (hmin t htT) (Ne.symm hne))

end Full

end Largest
