/-
What a crash leaves of a list of writes.

The writes are applied one after another, each of them complete or not at all. A crash
leaves the state after the first few, and the states it can leave of two lists in a row
are those of the first and, from where that one ends, those of the second.
-/
import Mathlib.Data.List.Infix

set_option autoImplicit false

/-- The states that a crash during `ws` can leave, from `s` on. -/
def CrashPoint {σ ω : Type} (apply : σ → ω → σ) (s : σ) (ws : List ω) (t : σ) : Prop :=
  ∃ first, first <+: ws ∧ first.foldl apply s = t

namespace CrashPoint

variable {σ ω : Type} {apply : σ → ω → σ} {s t : σ} {ws ws' : List ω}

/-- A crash before the first write. -/
theorem start : CrashPoint apply s ws s := ⟨[], List.nil_prefix, rfl⟩

/-- A crash behind the last one. -/
theorem done : CrashPoint apply s ws (ws.foldl apply s) := ⟨ws, List.prefix_refl ws, rfl⟩

theorem of_nil (h : CrashPoint apply s [] t) : t = s := by
  obtain ⟨first, hfirst, rfl⟩ := h
  rw [List.prefix_nil.mp hfirst]
  rfl

theorem append : CrashPoint apply s (ws ++ ws') t ↔
    CrashPoint apply s ws t ∨ CrashPoint apply (ws.foldl apply s) ws' t := by
  constructor
  · rintro ⟨first, hfirst, rfl⟩
    by_cases hlen : first.length ≤ ws.length
    · exact Or.inl ⟨first, List.prefix_of_prefix_length_le hfirst (List.prefix_append ws ws') hlen,
        rfl⟩
    · obtain ⟨more, rfl⟩ := List.prefix_of_prefix_length_le (List.prefix_append ws ws') hfirst
        (Nat.le_of_not_le hlen)
      refine Or.inr ⟨more, (List.prefix_append_right_inj ws).mp hfirst, ?_⟩
      rw [List.foldl_append]
  · rintro (⟨first, hfirst, rfl⟩ | ⟨more, hmore, rfl⟩)
    · exact ⟨first, hfirst.trans (List.prefix_append ws ws'), rfl⟩
    · exact ⟨ws ++ more, (List.prefix_append_right_inj ws).mpr hmore, List.foldl_append⟩

/-- One more write. -/
theorem concat {w : ω} : CrashPoint apply s (ws ++ [w]) t ↔
    CrashPoint apply s ws t ∨ t = (ws ++ [w]).foldl apply s := by
  constructor
  · rintro ⟨first, hfirst, rfl⟩
    rcases List.prefix_concat_iff.mp hfirst with rfl | hfirst
    · exact Or.inr rfl
    · exact Or.inl ⟨first, hfirst, rfl⟩
  · rintro (h | rfl)
    · exact append.mpr (Or.inl h)
    · exact done

end CrashPoint
