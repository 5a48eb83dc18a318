/-
Loops that attempt something until they return.

`turn` is the body of such a loop: what becomes of its variables when an attempt has
the result `r`, and `none` when the loop returns. The results are any sequence.
`ReturnsWithin` bounds the attempts of a loop, the failed and the successful ones
apart; `returnsWithin_of_measures` proves a bound from two measures that the attempts
use up, and `returnsWithin_iff_of_waits` says when a loop returns that does nothing
but wait for a success.
-/
import Mathlib.Data.Nat.Count

set_option autoImplicit false

namespace Attempts

variable {σ ρ : Type} (turn : σ → ρ → Option σ) (results : ℕ → ρ) (s : σ)

/-- The variables before attempt `n`, if the loop makes it. -/
def before : ℕ → Option σ
  | 0 => some s
  | n + 1 => (before n).bind fun t => turn t (results n)

/-- The loop returns after `n` attempts. -/
structure ReturnsAfter (n : ℕ) : Prop where
  made : ∀ k < n, before turn results s k ≠ none
  returned : before turn results s n = none

/-- The loop returns after at most so many failed and so many successful attempts. -/
def ReturnsWithin (ok : ρ → Prop) [DecidablePred ok] (failed successful : ℕ) : Prop :=
  ∃ n, ReturnsAfter turn results s n ∧ Nat.count (fun k => ¬ ok (results k)) n ≤ failed
    ∧ Nat.count (fun k => ok (results k)) n ≤ successful

variable {turn results s} {ok : ρ → Prop} [DecidablePred ok]

theorem exists_returnsAfter {n : ℕ} (h : before turn results s n = none) :
    ∃ m, ReturnsAfter turn results s m :=
  have hex : ∃ m, before turn results s m = none := ⟨n, h⟩
  ⟨Nat.find hex, fun _ hk => Nat.find_min hex hk, Nat.find_spec hex⟩

/-- Every loop makes a first attempt. -/
theorem ReturnsAfter.exists_last {n : ℕ} (h : ReturnsAfter turn results s n) :
    ∃ k t, n = k + 1 ∧ before turn results s k = some t ∧ turn t (results k) = none := by
  cases n with
  | zero =>
    have hstart := h.returned
    cases hstart
  | succ k =>
    obtain ⟨t, ht⟩ := Option.ne_none_iff_exists'.mp (h.made k (Nat.lt_succ_self k))
    have hret := h.returned
    rw [before, ht, Option.bind_some] at hret
    exact ⟨k, t, rfl, ht, hret⟩

/-! ## Bounds -/

/-- What the attempts made so far have used up of two measures. -/
theorem used {φ ψ : σ → ℕ}
    (hfail : ∀ t r u, turn t r = some u → ¬ ok r → φ u < φ t ∧ ψ u ≤ ψ t)
    (hok : ∀ t r u, turn t r = some u → ok r → φ u ≤ φ t ∧ ψ u < ψ t) {n : ℕ} {t : σ}
    (h : before turn results s n = some t) :
    φ t + Nat.count (fun k => ¬ ok (results k)) n ≤ φ s
      ∧ ψ t + Nat.count (fun k => ok (results k)) n ≤ ψ s := by
  induction n generalizing t with
  | zero =>
    cases h
    rw [Nat.count_zero, Nat.count_zero]
    exact ⟨Nat.le_refl _, Nat.le_refl _⟩
  | succ n ih =>
    rw [before] at h
    obtain ⟨u, hu, ht⟩ := Option.bind_eq_some_iff.mp h
    obtain ⟨hφ, hψ⟩ := ih hu
    rw [Nat.count_succ, Nat.count_succ]
    by_cases hr : ok (results n)
    · obtain ⟨h1, h2⟩ := hok u (results n) t ht hr
      rw [if_neg (not_not_intro hr), if_pos hr]
      omega
    · obtain ⟨h1, h2⟩ := hfail u (results n) t ht hr
      rw [if_pos hr, if_neg hr]
      omega

/-- Every attempt is a failed or a successful one. -/
theorem count_add_count (n : ℕ) :
    Nat.count (fun k => ¬ ok (results k)) n + Nat.count (fun k => ok (results k)) n = n := by
  induction n with
  | zero => rw [Nat.count_zero, Nat.count_zero]
  | succ n ih =>
    rw [Nat.count_succ, Nat.count_succ]
    by_cases hr : ok (results n)
    · rw [if_neg (not_not_intro hr), if_pos hr]
      omega
    · rw [if_pos hr, if_neg hr]
      omega

/-- A loop in which every failure uses up one measure and every success another. The
attempt with which it returns may be one more of its kind. -/
theorem returnsWithin_of_measures (φ ψ : σ → ℕ)
    (hfail : ∀ t r u, turn t r = some u → ¬ ok r → φ u < φ t ∧ ψ u ≤ ψ t)
    (hok : ∀ t r u, turn t r = some u → ok r → φ u ≤ φ t ∧ ψ u < ψ t) :
    ReturnsWithin turn results s ok (φ s + 1) (ψ s + 1) := by
  obtain ⟨n, hn⟩ : ∃ n, n = φ s + ψ s + 1 := ⟨_, rfl⟩
  have hnone : before turn results s n = none := by
    rcases hb : before turn results s n with _ | t
    · rfl
    · obtain ⟨hφ, hψ⟩ := used hfail hok hb
      have hall : Nat.count (fun k => ¬ ok (results k)) n
          + Nat.count (fun k => ok (results k)) n = n :=
        count_add_count n
      omega
  obtain ⟨m, hm⟩ := exists_returnsAfter hnone
  obtain ⟨k, t, rfl, ht, -⟩ := hm.exists_last
  obtain ⟨hφ, hψ⟩ := used hfail hok ht
  refine ⟨k + 1, hm, ?_, ?_⟩
  · rw [Nat.count_succ]
    split <;> omega
  · rw [Nat.count_succ]
    split <;> omega

/-- A loop that makes no progress. -/
theorem before_eq_some {n : ℕ} (h : ∀ k < n, turn s (results k) = some s) :
    before turn results s n = some s := by
  induction n with
  | zero => rfl
  | succ n ih =>
    rw [before, ih fun k hk => h k (Nat.lt_succ_of_lt hk), Option.bind_some]
    exact h n (Nat.lt_succ_self n)

/-- A loop that only waits for a success returns with it, and so never without one. -/
theorem returnsWithin_iff_of_waits (h : ∀ r, turn s r = if ok r then none else some s)
    (failed : ℕ) :
    ReturnsWithin turn results s ok failed 1 ↔ ∃ n ≤ failed, ok (results n) := by
  have hwait : ∀ {n}, (∀ k < n, ¬ ok (results k)) → before turn results s n = some s :=
    fun hno => before_eq_some fun k hk => by rw [h, if_neg (hno k hk)]
  constructor
  · rintro ⟨n, hn, hfailed, -⟩
    by_contra hno
    obtain ⟨k, t, rfl, ht, hret⟩ := hn.exists_last
    by_cases hk : k ≤ failed
    · have hall : ∀ j < k + 1, ¬ ok (results j) := fun j hj hok => hno ⟨j, by omega, hok⟩
      have hnone := hn.returned
      rw [hwait hall] at hnone
      cases hnone
    · -- the attempts up to the bound have all failed
      have hmono := Nat.count_monotone (fun k => ¬ ok (results k))
        (show failed + 1 ≤ k + 1 by omega)
      have hall : Nat.count (fun k => ¬ ok (results k)) (failed + 1) = failed + 1 :=
        Nat.count_iff_forall.mpr fun j hj hok => hno ⟨j, Nat.le_of_lt_succ hj, hok⟩
      omega
  · rintro ⟨n, hn, hok⟩
    have hex : ∃ n, ok (results n) := ⟨n, hok⟩
    obtain ⟨m, hm⟩ : ∃ m, m = Nat.find hex := ⟨_, rfl⟩
    have hfirst : ok (results m) := hm ▸ Nat.find_spec hex
    have hno : ∀ k < m, ¬ ok (results k) := fun k hk => Nat.find_min hex (hm ▸ hk)
    have hmn : m ≤ n := hm ▸ Nat.find_min' hex hok
    refine ⟨m + 1, ⟨fun k hk => ?_, ?_⟩, ?_, ?_⟩
    · rw [hwait fun j hj => hno j (by omega)]
      exact Option.some_ne_none s
    · rw [before, hwait hno, Option.bind_some, h, if_pos hfirst]
    · rw [Nat.count_succ, if_neg (not_not_intro hfirst)]
      exact Nat.le_trans (Nat.count_le _) (Nat.le_trans hmn hn)
    · rw [Nat.count_succ, if_pos hfirst, Nat.count_iff_forall_not.mpr hno]

end Attempts
