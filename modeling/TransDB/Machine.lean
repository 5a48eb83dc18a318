/-
Transition systems with a partial step, and invariants of their runs.

A machine is a set of initial states and a step function on actions; a step that
is undefined is `none`. `Reach ok` are the states of the runs in which every step
meets `ok`, a condition on the state before, the action and the state after. An
invariant is proved once for all runs from what one step preserves.
-/
import Mathlib.Data.Option.Basic

set_option autoImplicit false

/-- A machine with states `σ` and actions `α`. -/
structure Machine (σ α : Type) where
  init : σ → Prop
  step : σ → α → Option σ

namespace Machine

variable {σ α : Type} {M : Machine σ α} {ok ok' : σ → α → σ → Prop}

/-- The states of the runs whose steps all meet `ok`. -/
inductive Reach (M : Machine σ α) (ok : σ → α → σ → Prop) : σ → Prop
  | init (s : σ) (h : M.init s) : Reach M ok s
  | step (s t : σ) (a : α) (h : Reach M ok s) (hok : ok s a t) (hs : M.step s a = some t) :
    Reach M ok t

/-- A run from one state to another whose steps all meet `ok`. -/
inductive Steps (M : Machine σ α) (ok : σ → α → σ → Prop) : σ → σ → Prop
  | refl (s : σ) : Steps M ok s s
  | head (s t u : σ) (a : α) (hok : ok s a t) (hs : M.step s a = some t) (h : Steps M ok t u) :
    Steps M ok s u

/-- What holds at the start and is kept by every step holds in every state. -/
theorem Reach.invariant (inv : σ → Prop) (hinit : ∀ s, M.init s → inv s)
    (hstep : ∀ s a t, inv s → ok s a t → M.step s a = some t → inv t) {s : σ}
    (h : M.Reach ok s) : inv s := by
  induction h with
  | init s h => exact hinit s h
  | step s t a _ hok hs ih => exact hstep s a t ih hok hs

/-- The same for a stretch of a run. -/
theorem Steps.invariant (inv : σ → Prop)
    (hstep : ∀ s a t, inv s → ok s a t → M.step s a = some t → inv t) {s t : σ}
    (h : M.Steps ok s t) (hs : inv s) : inv t := by
  induction h with
  | refl s => exact hs
  | head s t u a hok ha _ ih => exact ih (hstep s a t hs hok ha)

theorem Reach.mono (hok : ∀ s a t, ok s a t → ok' s a t) {s : σ} (h : M.Reach ok s) :
    M.Reach ok' s := by
  induction h with
  | init s h => exact .init s h
  | step s t a _ hst hs ih => exact .step s t a ih (hok s a t hst) hs

theorem Steps.mono (hok : ∀ s a t, ok s a t → ok' s a t) {s t : σ} (h : M.Steps ok s t) :
    M.Steps ok' s t := by
  induction h with
  | refl s => exact .refl s
  | head s t u a hst hs _ ih => exact .head s t u a (hok s a t hst) hs ih

theorem Steps.trans {s t u : σ} (h : M.Steps ok s t) (h' : M.Steps ok t u) : M.Steps ok s u := by
  induction h with
  | refl s => exact h'
  | head s t _ a hok hs _ ih => exact .head s t _ a hok hs (ih h')

theorem Steps.single {s t : σ} {a : α} (hok : ok s a t) (hs : M.step s a = some t) :
    M.Steps ok s t :=
  .head s t t a hok hs (.refl t)

/-- The state after a list of actions, if every step is defined and passes a test. -/
def run (M : Machine σ α) (test : σ → α → Bool) : σ → List α → Option σ
  | s, [] => some s
  | s, a :: as => if test s a then (M.step s a).bind fun t => run M test t as else none

/-- A test that implies the condition makes the run one of the machine's. -/
theorem Steps.of_run {test : σ → α → Bool}
    (htest : ∀ s a t, test s a = true → M.step s a = some t → ok s a t)
    {as : List α} {s t : σ} (h : M.run test s as = some t) : M.Steps ok s t := by
  induction as generalizing s with
  | nil =>
    cases h
    exact .refl _
  | cons a as ih =>
    rw [run] at h
    by_cases ha : test s a = true
    · rw [if_pos ha] at h
      obtain ⟨u, hu, h⟩ := Option.bind_eq_some_iff.mp h
      exact .head s u t a (htest s a u ha hu) hu (ih h)
    · rw [if_neg ha] at h
      cases h

/-- A run goes on from a state it has reached. -/
theorem Reach.steps {s t : σ} (h : M.Reach ok s) (hst : M.Steps ok s t) : M.Reach ok t := by
  induction hst with
  | refl s => exact h
  | head s t _ a hok hs _ ih => exact ih (.step s t a h hok hs)

end Machine
