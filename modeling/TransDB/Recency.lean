/-
The list of keys in the order in which they were last touched.

Keys are put and removed. A key that is put goes to the end, wherever it was before, so
the list is what is present, oldest first. `recent` is the list as these operations build
it; `LastPut` says the same of the history alone, by the position of the operation that
put a key last.
-/
import Mathlib.Data.List.Nodup
import Mathlib.Data.List.Induction

set_option autoImplicit false

namespace Recency

/-- The operations. -/
inductive Op (α : Type)
  | put (x : α)
  | remove (x : α)
  deriving DecidableEq, Repr

variable {α : Type} {ops : List (Op α)} {x y : α}

/-- The key an operation is about. -/
def Op.key : Op α → α
  | .put x => x
  | .remove x => x

/-- What an operation makes of the list. -/
def touch [DecidableEq α] (l : List α) : Op α → List α
  | .put x => l.erase x ++ [x]
  | .remove x => l.erase x

/-- The list after a history. -/
def recent [DecidableEq α] (ops : List (Op α)) : List α := ops.foldl touch []

/-- Operation `i` put `x`, and no later one was about it. -/
def LastPut (ops : List (Op α)) (x : α) (i : ℕ) : Prop :=
  ops[i]? = some (.put x) ∧ ∀ j op, i < j → ops[j]? = some op → op.key ≠ x

theorem LastPut.lt_length {i : ℕ} (h : LastPut ops x i) : i < ops.length :=
  (List.getElem?_eq_some_iff.mp h.1).1

theorem LastPut.unique {i j : ℕ} (hi : LastPut ops x i) (hj : LastPut ops x j) : i = j := by
  rcases Nat.lt_trichotomy i j with hlt | heq | hgt
  · exact absurd rfl (hi.2 j _ hlt hj.1)
  · exact heq
  · exact absurd rfl (hj.2 i _ hgt hi.1)

/-- One more operation about another key leaves the last put where it is. -/
theorem lastPut_append_of_ne {op : Op α} {i : ℕ} (hne : op.key ≠ x) :
    LastPut (ops ++ [op]) x i ↔ LastPut ops x i := by
  constructor
  · rintro ⟨hput, hlater⟩
    have hlt : i < ops.length := by
      by_contra hge
      have hi := (List.getElem?_eq_some_iff.mp hput).1
      rw [List.length_append, List.length_singleton] at hi
      obtain rfl : i = ops.length := by omega
      rw [List.getElem?_concat_length] at hput
      exact hne (by rw [Option.some.inj hput]; rfl)
    rw [List.getElem?_append_left hlt] at hput
    refine ⟨hput, fun j op' hj hop => hlater j op' hj ?_⟩
    rwa [List.getElem?_append_left (List.getElem?_eq_some_iff.mp hop).1]
  · intro h
    refine ⟨by rw [List.getElem?_append_left h.lt_length]; exact h.1, fun j op' hj hop => ?_⟩
    by_cases hlt : j < ops.length
    · rw [List.getElem?_append_left hlt] at hop
      exact h.2 j op' hj hop
    · have hj' := (List.getElem?_eq_some_iff.mp hop).1
      rw [List.length_append, List.length_singleton] at hj'
      obtain rfl : j = ops.length := by omega
      rw [List.getElem?_concat_length] at hop
      rw [← Option.some.inj hop]
      exact hne

theorem lastPut_append_put {i : ℕ} : LastPut (ops ++ [.put x]) x i ↔ i = ops.length := by
  have hlast : LastPut (ops ++ [.put x]) x ops.length := by
    refine ⟨List.getElem?_concat_length, fun j op hj hop => ?_⟩
    have hj' := (List.getElem?_eq_some_iff.mp hop).1
    rw [List.length_append, List.length_singleton] at hj'
    omega
  constructor
  · intro h
    exact h.unique hlast
  · rintro rfl
    exact hlast

theorem not_lastPut_append_remove {i : ℕ} : ¬ LastPut (ops ++ [.remove x]) x i := by
  intro h
  have hlt := h.lt_length
  rw [List.length_append, List.length_singleton] at hlt
  have hlater := h.2 ops.length (.remove x)
  rw [List.getElem?_concat_length] at hlater
  by_cases hi : i < ops.length
  · exact hlater hi rfl rfl
  · obtain rfl : i = ops.length := by omega
    have hput := h.1
    rw [List.getElem?_concat_length] at hput
    cases hput

section Recent

variable [DecidableEq α]

theorem recent_append (ops : List (Op α)) (op : Op α) :
    recent (ops ++ [op]) = touch (recent ops) op := by
  rw [recent, List.foldl_append]
  rfl

theorem nodup_touch {l : List α} (h : l.Nodup) (op : Op α) : (touch l op).Nodup := by
  cases op with
  | put x =>
    refine List.nodup_append.mpr ⟨h.erase x, List.nodup_singleton x, ?_⟩
    intro y hy z hz hyz
    rw [List.mem_singleton.mp hz] at hyz
    exact h.not_mem_erase (hyz ▸ hy)
  | remove x => exact h.erase x

/-- Each key is in the list once. -/
theorem nodup_recent (ops : List (Op α)) : (recent ops).Nodup := by
  induction ops using List.reverseRecOn with
  | nil => exact List.nodup_nil
  | append_singleton ops op ih =>
    rw [recent_append]
    exact nodup_touch ih op

/-- A key of the list that an operation is not about was in it before. -/
theorem mem_touch_of_ne {l : List α} (hnd : l.Nodup) {op : Op α} (hne : op.key ≠ y) :
    y ∈ touch l op ↔ y ∈ l := by
  cases op with
  | put x =>
    have hyx : y ≠ x := fun heq => hne heq.symm
    rw [touch, List.mem_append, hnd.mem_erase_iff, List.mem_singleton]
    exact ⟨fun h => (h.resolve_right hyx).2, fun h => Or.inl ⟨hyx, h⟩⟩
  | remove x =>
    rw [touch, hnd.mem_erase_iff]
    exact and_iff_right fun heq => hne heq.symm

/-- The keys of the list are those that were put and not removed since. -/
theorem mem_recent : x ∈ recent ops ↔ ∃ i, LastPut ops x i := by
  induction ops using List.reverseRecOn with
  | nil =>
    refine iff_of_false List.not_mem_nil ?_
    rintro ⟨i, hput, -⟩
    cases hput
  | append_singleton ops op ih =>
    rw [recent_append]
    by_cases hne : op.key ≠ x
    · rw [mem_touch_of_ne (nodup_recent ops) hne, ih]
      exact exists_congr fun i => (lastPut_append_of_ne hne).symm
    · rw [ne_eq, not_not] at hne
      subst hne
      cases op with
      | put x =>
        refine iff_of_true (List.mem_append_right _ (List.mem_singleton.mpr rfl)) ?_
        exact ⟨ops.length, lastPut_append_put.mpr rfl⟩
      | remove x =>
        refine iff_of_false (nodup_recent ops).not_mem_erase ?_
        rintro ⟨i, hi⟩
        exact not_lastPut_append_remove hi

/-- Older keys come first. -/
theorem pairwise_recent (ops : List (Op α)) :
    (recent ops).Pairwise fun x y => ∀ i j, LastPut ops x i → LastPut ops y j → i < j := by
  induction ops using List.reverseRecOn with
  | nil => exact List.Pairwise.nil
  | append_singleton ops op ih =>
    -- what is left of the old list is about other keys
    have hrest : ((recent ops).erase op.key).Pairwise fun x y =>
        ∀ i j, LastPut (ops ++ [op]) x i → LastPut (ops ++ [op]) y j → i < j := by
      refine (ih.sublist List.erase_sublist).imp_of_mem fun {y z} hy hz hyz i j hi hj => ?_
      have hnd := nodup_recent ops
      have hy' : op.key ≠ y := fun heq => (hnd.mem_erase_iff.mp hy).1 heq.symm
      have hz' : op.key ≠ z := fun heq => (hnd.mem_erase_iff.mp hz).1 heq.symm
      exact hyz i j ((lastPut_append_of_ne hy').mp hi) ((lastPut_append_of_ne hz').mp hj)
    rw [recent_append]
    cases op with
    | remove x => exact hrest
    | put x =>
      refine List.pairwise_append.mpr ⟨hrest, List.pairwise_singleton _ _, ?_⟩
      intro y hy z hz i j hi hj
      rw [List.mem_singleton.mp hz] at hj
      rw [lastPut_append_put.mp hj]
      have hne : (Op.put x).key ≠ y := fun heq =>
        ((nodup_recent ops).mem_erase_iff.mp hy).1 heq.symm
      exact ((lastPut_append_of_ne hne).mp hi).lt_length

/-- The first key is the one whose last put is the oldest. -/
theorem head?_recent :
    (recent ops).head? = some x ↔ ∃ i, LastPut ops x i ∧ ∀ y j, LastPut ops y j → i ≤ j := by
  have hsorted := pairwise_recent ops
  cases hl : recent ops with
  | nil =>
    refine iff_of_false (by rintro ⟨⟩) ?_
    rintro ⟨i, hi, -⟩
    have hmem := mem_recent.mpr ⟨i, hi⟩
    rw [hl] at hmem
    cases hmem
  | cons z l =>
    rw [hl, List.pairwise_cons] at hsorted
    have hz : z ∈ recent ops := by
      rw [hl]
      exact List.mem_cons_self
    obtain ⟨k, hk⟩ := mem_recent.mp hz
    have hfirst : ∀ y j, LastPut ops y j → k ≤ j := by
      intro y j hj
      have hy := mem_recent.mpr ⟨j, hj⟩
      rw [hl] at hy
      rcases List.mem_cons.mp hy with rfl | hy
      · exact Nat.le_of_eq (hk.unique hj)
      · exact Nat.le_of_lt (hsorted.1 y hy k j hk hj)
    rw [List.head?_cons, Option.some.injEq]
    constructor
    · rintro rfl
      exact ⟨k, hk, hfirst⟩
    · rintro ⟨i, hi, hle⟩
      obtain rfl : i = k := Nat.le_antisymm (hle z k hk) (hfirst x i hi)
      have h1 := hk.1
      rw [hi.1] at h1
      cases h1
      rfl

end Recent

end Recency
