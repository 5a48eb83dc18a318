/-
Refinement of a specification by a machine.

A specification says which events may follow a state, and where they lead. A machine
shows some of its steps as events and hides the others; it refines the specification when
a relation between the states of the two is kept: a shown step is a step of the
specification, and a hidden one leaves its state alone. Then what is seen of a run is a
run of the specification.

`copies` runs one specification for each key, next to one another. Such a run is legal
exactly if each key sees a legal run, so a claim about the whole is one about each key.
-/
import TransDB.Machine
import Mathlib.Data.List.Nodup
import Mathlib.Logic.Function.Basic

set_option autoImplicit false

/-- Which events may follow a state, and the state after them. -/
structure Spec (τ ε : Type) where
  next : τ → ε → τ → Prop

namespace Spec

variable {τ ε κ : Type} {S : Spec τ ε}

/-- A run of the specification. -/
inductive Runs (S : Spec τ ε) : τ → List ε → τ → Prop
  | nil (t : τ) : Runs S t [] t
  | cons (t u v : τ) (e : ε) (es : List ε) (hn : S.next t e u) (hr : Runs S u es v) :
    Runs S t (e :: es) v

theorem runs_nil {t u : τ} : S.Runs t [] u ↔ u = t := by
  constructor
  · intro h
    cases h
    rfl
  · rintro rfl
    exact .nil u

theorem runs_cons {t v : τ} {e : ε} {es : List ε} :
    S.Runs t (e :: es) v ↔ ∃ u, S.next t e u ∧ S.Runs u es v := by
  constructor
  · intro h
    cases h with
    | cons _ u _ _ _ hn hr => exact ⟨u, hn, hr⟩
  · rintro ⟨u, hn, hr⟩
    exact .cons t u v e es hn hr

theorem Runs.append {t u v : τ} {es fs : List ε} (h : S.Runs t es u) (h' : S.Runs u fs v) :
    S.Runs t (es ++ fs) v := by
  induction h with
  | nil t => exact h'
  | cons t u _ e es hn _ ih => exact .cons t u v e _ hn (ih h')

theorem Runs.snoc {t u v : τ} {es : List ε} {e : ε} (h : S.Runs t es u) (hn : S.next u e v) :
    S.Runs t (es ++ [e]) v :=
  h.append (.cons u v v e [] hn (.nil v))

/-- What holds of the state and what has been seen so far, and is kept by every event,
holds at the end. -/
theorem Runs.invariant (inv : τ → List ε → Prop)
    (hstep : ∀ t es e u, inv t es → S.next t e u → inv u (es ++ [e])) {t u : τ} {seen es : List ε}
    (h : S.Runs t es u) (ht : inv t seen) : inv u (seen ++ es) := by
  induction h generalizing seen with
  | nil t => rwa [List.append_nil]
  | cons t u _ e es hn _ ih =>
    have hend := ih (hstep t seen e u ht hn)
    rwa [List.append_assoc] at hend

/-! ## One specification for each key -/

/-- A specification for each key; an event is one of the specification of its key. -/
def copies (S : κ → Spec τ ε) : Spec (κ → τ) (κ × ε) where
  next f e g := (S e.1).next (f e.1) e.2 (g e.1) ∧ ∀ k, k ≠ e.1 → g k = f k

variable [DecidableEq κ]

/-- The events of a key. -/
def eventsOf (k : κ) (es : List (κ × ε)) : List ε :=
  es.filterMap fun e => if e.1 = k then some e.2 else none

theorem eventsOf_cons_self (k : κ) (e : ε) (es : List (κ × ε)) :
    eventsOf k ((k, e) :: es) = e :: eventsOf k es := by
  rw [eventsOf, List.filterMap_cons]
  dsimp only
  rw [if_pos rfl]
  rfl

theorem eventsOf_cons_ne {k : κ} {e : κ × ε} (h : e.1 ≠ k) (es : List (κ × ε)) :
    eventsOf k (e :: es) = eventsOf k es := by
  rw [eventsOf, List.filterMap_cons, if_neg h]
  rfl

theorem eventsOf_append (k : κ) (es fs : List (κ × ε)) :
    eventsOf k (es ++ fs) = eventsOf k es ++ eventsOf k fs :=
  List.filterMap_append

/-- Events of different keys do not see one another. -/
theorem copies_runs_iff {S : κ → Spec τ ε} {es : List (κ × ε)} {f g : κ → τ} :
    (copies S).Runs f es g ↔ ∀ k, (S k).Runs (f k) (eventsOf k es) (g k) := by
  induction es generalizing f with
  | nil =>
    rw [runs_nil]
    constructor
    · rintro rfl k
      exact .nil _
    · intro h
      funext k
      exact runs_nil.mp (h k)
  | cons e es ih =>
    obtain ⟨k, e⟩ := e
    rw [runs_cons]
    constructor
    · rintro ⟨f', ⟨hn, hother⟩, hr⟩ j
      by_cases hj : k = j
      · subst hj
        rw [eventsOf_cons_self]
        exact .cons _ _ _ e _ hn (ih.mp hr k)
      · rw [eventsOf_cons_ne hj, ← hother j (Ne.symm hj)]
        exact ih.mp hr j
    · intro h
      have hk := h k
      rw [eventsOf_cons_self, runs_cons] at hk
      obtain ⟨t, hn, hr⟩ := hk
      refine ⟨Function.update f k t, ⟨?_, fun j hj => Function.update_of_ne hj t f⟩,
        ih.mpr fun j => ?_⟩
      · rw [Function.update_self]
        exact hn
      · by_cases hj : j = k
        · subst hj
          rw [Function.update_self]
          exact hr
        · have hother := h j
          rw [eventsOf_cons_ne (Ne.symm hj)] at hother
          rwa [Function.update_of_ne hj]

end Spec

/-- In a list where `f` has each value once, what has a value is at one place. -/
theorem List.split_once {ε β : Type} {f : ε → Option β} {b : β} {x y : ε} {es : List ε}
    (hnodup : (es.filterMap f).Nodup) (hx : f x = some b) (hy : f y = some b)
    {pre pre' post post' : List ε} (h : es = pre ++ x :: post) (h' : es = pre' ++ y :: post') :
    pre' = pre ∧ y = x ∧ post' = post := by
  have hmem : ∀ {z : ε} {fs : List ε}, f z = some b → z ∈ fs → b ∈ fs.filterMap f :=
    fun hz hmem => List.mem_filterMap.mpr ⟨_, hmem, hz⟩
  rw [h, List.filterMap_append, List.filterMap_cons, hx] at hnodup
  obtain ⟨-, htail, hapart⟩ := List.nodup_append'.mp hnodup
  rcases List.append_eq_append_iff.mp (h.symm.trans h') with ⟨rest, rfl, hrest⟩ | ⟨rest, rfl, hrest⟩
  · cases rest with
    | nil =>
      obtain ⟨rfl, rfl⟩ := List.cons.inj hrest
      exact ⟨List.append_nil pre, rfl, rfl⟩
    | cons z rest =>
      obtain ⟨rfl, rfl⟩ := List.cons.inj hrest
      exact absurd (hmem hy (List.mem_append_right rest List.mem_cons_self))
        (List.nodup_cons.mp htail).1
  · cases rest with
    | nil =>
      obtain ⟨rfl, rfl⟩ := List.cons.inj hrest
      exact ⟨(List.append_nil pre').symm, rfl, rfl⟩
    | cons z rest =>
      obtain ⟨rfl, rfl⟩ := List.cons.inj hrest
      exact absurd List.mem_cons_self
        (hapart (hmem hy (List.mem_append_right pre' List.mem_cons_self)))

/-! ## What is seen of a machine -/

namespace Machine

variable {σ α τ ε : Type} {M : Machine σ α} {ok : σ → α → σ → Prop} {seen : σ → α → Option ε}

/-- A run from one state to another, with the events that are seen of it. -/
inductive Shows (M : Machine σ α) (ok : σ → α → σ → Prop) (seen : σ → α → Option ε) (s : σ) :
    List ε → σ → Prop
  | refl : Shows M ok seen s [] s
  | tail (t u : σ) (a : α) (es : List ε) (h : Shows M ok seen s es t) (hok : ok t a u)
    (hs : M.step t a = some u) : Shows M ok seen s (es ++ (seen t a).toList) u

/-- The run, without what is seen. -/
theorem Shows.steps {s t : σ} {es : List ε} (h : M.Shows ok seen s es t) : M.Steps ok s t := by
  induction h with
  | refl => exact .refl s
  | tail t u a es _ hok hs ih => exact ih.trans (.single hok hs)

theorem Shows.trans {s t u : σ} {es fs : List ε} (h : M.Shows ok seen s es t)
    (h' : M.Shows ok seen t fs u) : M.Shows ok seen s (es ++ fs) u := by
  induction h' with
  | refl => rwa [List.append_nil]
  | tail v w a gs _ hok hs ih =>
    rw [← List.append_assoc]
    exact .tail v w a _ ih hok hs

theorem Shows.single {s t : σ} {a : α} (hok : ok s a t) (hs : M.step s a = some t) :
    M.Shows ok seen s (seen s a).toList t :=
  .tail s t a [] .refl hok hs

/-- What is seen of a list of actions, and the state after it, if every step is defined and
passes a test. -/
def observe (M : Machine σ α) (seen : σ → α → Option ε) (test : σ → α → Bool) :
    σ → List α → Option (List ε × σ)
  | s, [] => some ([], s)
  | s, a :: as =>
    if test s a then
      (M.step s a).bind fun t =>
        (observe M seen test t as).map fun p => ((seen s a).toList ++ p.1, p.2)
    else none

/-- A test that implies the condition makes it one of the machine's runs. -/
theorem Shows.of_observe {test : σ → α → Bool}
    (htest : ∀ s a t, test s a = true → M.step s a = some t → ok s a t) {as : List α}
    {s t : σ} {es : List ε} (h : M.observe seen test s as = some (es, t)) :
    M.Shows ok seen s es t := by
  induction as generalizing s es with
  | nil =>
    cases h
    exact .refl
  | cons a as ih =>
    rw [observe] at h
    by_cases ha : test s a = true
    · rw [if_pos ha] at h
      obtain ⟨u, hu, h⟩ := Option.bind_eq_some_iff.mp h
      obtain ⟨⟨fs, v⟩, hrest, h⟩ := Option.map_eq_some_iff.mp h
      cases h
      exact (Shows.single (htest s a u ha hu) hu).trans (ih hrest)
    · rw [if_neg ha] at h
      cases h

/-- What holds of the state and of what has been seen, and is kept by every step, holds at
the end. -/
theorem Shows.invariant (inv : σ → List ε → Prop)
    (hstep : ∀ s es a t, inv s es → ok s a t → M.step s a = some t →
      inv t (es ++ (seen s a).toList)) {s t : σ} {es : List ε} (hs : inv s [])
    (h : M.Shows ok seen s es t) : inv t es := by
  induction h with
  | refl => exact hs
  | tail t u a es _ hok hs ih => exact hstep t es a u ih hok hs

/-- The run up to an event, and the step that shows it. -/
theorem Shows.split {s t : σ} {es pre post : List ε} {e : ε} (h : M.Shows ok seen s es t)
    (hes : es = pre ++ e :: post) : ∃ u a v, M.Shows ok seen s pre u ∧ ok u a v
      ∧ M.step u a = some v ∧ seen u a = some e ∧ M.Shows ok seen v post t := by
  induction h generalizing post with
  | refl => exact absurd hes.symm (List.append_ne_nil_of_right_ne_nil _ (List.cons_ne_nil _ _))
  | tail u v a es h hok hs ih =>
    cases hseen : seen u a with
    | none =>
      rw [hseen, Option.toList_none, List.append_nil] at hes
      obtain ⟨u', a', v', hpre, hok', hs', hseen', hpost⟩ := ih hes
      have hlast := hpost.trans (.single hok hs)
      rw [hseen, Option.toList_none, List.append_nil] at hlast
      exact ⟨u', a', v', hpre, hok', hs', hseen', hlast⟩
    | some f =>
      rw [hseen, Option.toList_some] at hes
      rcases List.eq_nil_or_concat post with rfl | ⟨post', last, rfl⟩
      · obtain ⟨rfl, hlast⟩ := List.append_inj' hes rfl
        cases hlast
        exact ⟨u, a, v, h, hok, hs, hseen, .refl⟩
      · rw [List.concat_eq_append, ← List.cons_append, ← List.append_assoc] at hes
        obtain ⟨hinit, hlast⟩ := List.append_inj' hes rfl
        cases hlast
        obtain ⟨u', a', v', hpre, hok', hs', hseen', hpost⟩ := ih hinit
        have hend := hpost.trans (.single hok hs)
        rw [hseen, Option.toList_some] at hend
        rw [List.concat_eq_append]
        exact ⟨u', a', v', hpre, hok', hs', hseen', hend⟩

/-- `N` is a part of `M`: a step of the whole is a step of the part or leaves it alone, and
`view` is what is seen of it. -/
def Projects {τ β η : Type} (M : Machine σ α) (ok : σ → α → σ → Prop) (seen : σ → α → Option ε)
    (N : Machine τ β) (ok' : τ → β → τ → Prop) (seen' : τ → β → Option η) (part : σ → τ)
    (view : ε → Option η) : Prop :=
  ∀ s a t, ok s a t → M.step s a = some t →
    part t = part s ∧ (seen s a).bind view = none
      ∨ ∃ b, ok' (part s) b (part t) ∧ N.step (part s) b = some (part t)
        ∧ seen' (part s) b = (seen s a).bind view

/-- What is seen of the part in a run of the whole. -/
theorem Projects.shows {β η : Type} {N : Machine τ β} {ok' : τ → β → τ → Prop}
    {seen' : τ → β → Option η} {part : σ → τ} {view : ε → Option η}
    (hp : M.Projects ok seen N ok' seen' part view) {s t : σ} {es : List ε}
    (h : M.Shows ok seen s es t) : N.Shows ok' seen' (part s) (es.filterMap view) (part t) := by
  have hview : ∀ o : Option ε, o.toList.filterMap view = (o.bind view).toList := by
    intro o
    cases o with
    | none => rfl
    | some e =>
      rw [Option.toList_some, Option.bind_some, List.filterMap_cons, List.filterMap_nil]
      cases view e <;> rfl
  induction h with
  | refl => exact .refl
  | tail t u a es _ hok hs ih =>
    rw [List.filterMap_append, hview]
    rcases hp t a u hok hs with ⟨hpart, hnone⟩ | ⟨b, hok', hs', hseen⟩
    · rw [hpart, hnone, Option.toList_none, List.append_nil]
      exact ih
    · rw [← hseen]
      exact .tail _ _ b _ ih hok' hs'

/-- A relation between the states of a machine and those of a specification that the steps
of the machine keep. -/
structure Simulates (M : Machine σ α) (ok : σ → α → σ → Prop) (seen : σ → α → Option ε)
    (S : Spec τ ε) (R : σ → τ → Prop) : Prop where
  hidden : ∀ s a s' t, R s t → ok s a s' → M.step s a = some s' → seen s a = none → R s' t
  shown : ∀ s a s' t e, R s t → ok s a s' → M.step s a = some s' → seen s a = some e →
    ∃ t', S.next t e t' ∧ R s' t'

/-- What is seen of a run is a run of the specification. -/
theorem Simulates.runs {S : Spec τ ε} {R : σ → τ → Prop} (h : M.Simulates ok seen S R) {s s' : σ}
    {es : List ε} (hs : M.Shows ok seen s es s') {t : τ} (hR : R s t) :
    ∃ t', S.Runs t es t' ∧ R s' t' := by
  induction hs with
  | refl => exact ⟨t, .nil t, hR⟩
  | tail u v a es _ hok hstep ih =>
    obtain ⟨t1, hr, hR1⟩ := ih
    cases hseen : seen u a with
    | none =>
      rw [Option.toList_none, List.append_nil]
      exact ⟨t1, hr, h.hidden u a v t1 hR1 hok hstep hseen⟩
    | some e =>
      obtain ⟨t2, hn, hR2⟩ := h.shown u a v t1 e hR1 hok hstep hseen
      exact ⟨t2, hr.snoc hn, hR2⟩

end Machine
