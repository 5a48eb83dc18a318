/-
Assignments to the fields of a record, one after another, and what a reader can
see between two of them.

A record is a function from field names to values. The one fact of use: when no
field is assigned twice, a field is at every intermediate point either as it was
or as it will be at the end (`run_take`). A sequence that first resets every
field and then assigns it again does not have this shape, and `run_reset` says
what it shows in the middle instead.
-/
import Mathlib.Data.List.Nodup
import Mathlib.Logic.Function.Basic

set_option autoImplicit false

/-- The assignment of a value to a field. -/
structure Assign (ι : Type) (Val : ι → Type) where
  field : ι
  value : Val field

namespace Assign

variable {ι : Type} [DecidableEq ι] {Val : ι → Type}

/-- A list of assignments, run in order. -/
def run (as : List (Assign ι Val)) (s : ∀ i, Val i) : ∀ i, Val i :=
  as.foldl (fun s a => Function.update s a.field a.value) s

/-- The fields a list assigns. -/
def fields (as : List (Assign ι Val)) : List ι := as.map Assign.field

theorem run_cons (a : Assign ι Val) (as : List (Assign ι Val)) (s : ∀ i, Val i) :
    run (a :: as) s = run as (Function.update s a.field a.value) := rfl

theorem run_append (as bs : List (Assign ι Val)) (s : ∀ i, Val i) :
    run (as ++ bs) s = run bs (run as s) := List.foldl_append

/-- A field that is not assigned keeps its value. -/
theorem run_of_notMem {as : List (Assign ι Val)} {i : ι} (h : i ∉ fields as) (s : ∀ i, Val i) :
    run as s i = s i := by
  induction as generalizing s with
  | nil => rfl
  | cons a as ih =>
    rw [fields, List.map_cons, List.mem_cons, not_or] at h
    rw [run_cons, ih h.2, Function.update_of_ne h.1]

/-- When no field is assigned twice, each assignment is there at the end. -/
theorem run_of_mem {as : List (Assign ι Val)} (h : (fields as).Nodup) {a : Assign ι Val}
    (ha : a ∈ as) (s : ∀ i, Val i) : run as s a.field = a.value := by
  induction as generalizing s with
  | nil => cases ha
  | cons b as ih =>
    rw [fields, List.map_cons, List.nodup_cons] at h
    rw [run_cons]
    rcases List.mem_cons.mp ha with rfl | ha
    · rw [run_of_notMem h.1, Function.update_self]
    · exact ih h.2 ha _

/-- When no field is assigned twice, each point in between shows the old value
or the final one. -/
theorem run_take {as : List (Assign ι Val)} (h : (fields as).Nodup) (n : ℕ) (s : ∀ i, Val i)
    (i : ι) : run (as.take n) s i = s i ∨ run (as.take n) s i = run as s i := by
  by_cases hi : i ∈ fields (as.take n)
  · right
    have hdrop : i ∉ fields (as.drop n) := by
      intro hd
      have hsplit : fields as = fields (as.take n) ++ fields (as.drop n) := by
        rw [fields, fields, fields, ← List.map_append, List.take_append_drop]
      rw [hsplit, List.nodup_append] at h
      exact h.2.2 i hi i hd rfl
    conv_rhs => rw [← List.take_append_drop n as, run_append]
    exact (run_of_notMem hdrop _).symm
  · exact Or.inl (run_of_notMem hi s)

/-- Every field reset to `d`. -/
def reset (order : List ι) (d : ∀ i, Val i) : List (Assign ι Val) := order.map fun i => ⟨i, d i⟩

omit [DecidableEq ι] in
theorem fields_reset (order : List ι) (d : ∀ i, Val i) : fields (reset order d) = order := by
  rw [fields, reset, List.map_map]
  exact List.map_id order

/-- A reset leaves the value of `d` in each field it names. -/
theorem run_reset_of_mem (d : ∀ i, Val i) {order : List ι} {i : ι} (hi : i ∈ order)
    (s : ∀ i, Val i) : run (reset order d) s i = d i := by
  induction order generalizing s with
  | nil => cases hi
  | cons j order ih =>
    have hrun : run (reset (j :: order) d) s = run (reset order d) (Function.update s j (d j)) :=
      rfl
    rw [hrun]
    by_cases hi' : i ∈ order
    · exact ih hi' _
    · rcases List.mem_cons.mp hi with rfl | hi
      · rw [run_of_notMem (by rw [fields_reset]; exact hi'), Function.update_self]
      · exact absurd hi hi'

/-- A reset of all fields forgets what was there. -/
theorem run_reset {order : List ι} (h : ∀ i, i ∈ order) (d s : ∀ i, Val i) :
    run (reset order d) s = d := funext fun i => run_reset_of_mem d (h i) s

/-- A prefix of a reset shows old values and those of `d`. -/
theorem run_take_reset (order : List ι) (d s : ∀ i, Val i) (n : ℕ) (i : ι) :
    run ((reset order d).take n) s i = s i ∨ run ((reset order d).take n) s i = d i := by
  have htake : (reset order d).take n = reset (order.take n) d := by
    rw [reset, reset, List.map_take]
  rw [htake]
  by_cases hi : i ∈ order.take n
  · exact Or.inr (run_reset_of_mem d hi s)
  · exact Or.inl (run_of_notMem (by rw [fields_reset]; exact hi) s)

end Assign
