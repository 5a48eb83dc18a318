/-
Procedures that call operations.

A procedure is done, or it calls an operation and goes on with the answer. What other
threads do between two calls is not in it: a procedure is run by a machine that makes one
call at a time. `After` says where a procedure is when some calls have been answered,
`Ends` what holds of every value it can end with.
-/
import Mathlib.Tactic.TypeStar
import Mathlib.Data.Sigma.Basic

set_option autoImplicit false

/-- A procedure that calls the operations `ι`, which answer with `ρ`. -/
inductive Proc (ι : Type) (ρ : ι → Type) (α : Type)
  | done (a : α)
  | call (i : ι) (k : ρ i → Proc ι ρ α)

namespace Proc

variable {ι : Type} {ρ : ι → Type} {α β σ : Type}

/-- One procedure after another. -/
def bind : Proc ι ρ α → (α → Proc ι ρ β) → Proc ι ρ β
  | done a, f => f a
  | call i k, f => call i fun v => (k v).bind f

/-- A loop over a list. -/
def forEach (body : σ → β → Proc ι ρ σ) : σ → List β → Proc ι ρ σ
  | s, [] => done s
  | s, b :: bs => (body s b).bind fun s => forEach body s bs

/-! ## Where a procedure is -/

/-- What is left of a procedure when calls have been answered. -/
inductive After : Proc ι ρ α → List (Sigma ρ) → Proc ι ρ α → Prop
  | refl (p : Proc ι ρ α) : After p [] p
  | head (i : ι) (k : ρ i → Proc ι ρ α) (v : ρ i) (cs : List (Sigma ρ)) (q : Proc ι ρ α)
    (h : After (k v) cs q) : After (call i k) (⟨i, v⟩ :: cs) q

variable {p q : Proc ι ρ α} {cs : List (Sigma ρ)}

theorem After.trans {r : Proc ι ρ α} {ds : List (Sigma ρ)} (h : p.After cs q)
    (h' : q.After ds r) : p.After (cs ++ ds) r := by
  induction h with
  | refl p => exact h'
  | head i k v cs _ _ ih => exact .head i k v _ _ (ih h')

/-- One more call is answered. -/
theorem After.answered {i : ι} {k : ρ i → Proc ι ρ α} (h : p.After cs (call i k)) (v : ρ i) :
    p.After (cs ++ [⟨i, v⟩]) (k v) :=
  h.trans (.head i k v [] _ (.refl _))

theorem after_done {a : α} : (done a : Proc ι ρ α).After cs q ↔ cs = [] ∧ q = done a := by
  constructor
  · intro h
    cases h
    exact ⟨rfl, rfl⟩
  · rintro ⟨rfl, rfl⟩
    exact .refl _

/-- Every value a procedure can end with has the property. -/
def Ends (P : α → Prop) : Proc ι ρ α → Prop
  | done a => P a
  | call _ k => ∀ v, (k v).Ends P

theorem Ends.after {P : α → Prop} (h : p.Ends P) (hafter : p.After cs q) : q.Ends P := by
  induction hafter with
  | refl p => exact h
  | head i k v cs _ _ ih => exact ih (h v)

theorem Ends.bind {P : β → Prop} {f : α → Proc ι ρ β} (h : p.Ends fun a => (f a).Ends P) :
    (p.bind f).Ends P := by
  induction p with
  | done a => exact h
  | call i k ih => exact fun v => ih v (h v)

theorem Ends.of_forall {P : α → Prop} (h : ∀ a, P a) (p : Proc ι ρ α) : p.Ends P := by
  induction p with
  | done a => exact h a
  | call i k ih => exact ih

/-! ## Run by one thread -/

/-- A procedure run with nothing in between. -/
def exec (op : (i : ι) → σ → Option (ρ i × σ)) : Proc ι ρ α → σ → Option (α × σ)
  | done a, s => some (a, s)
  | call i k, s => (op i s).bind fun r => (k r.1).exec op r.2

theorem exec_bind (op : (i : ι) → σ → Option (ρ i × σ)) (p : Proc ι ρ α)
    (f : α → Proc ι ρ β) (s : σ) :
    (p.bind f).exec op s = (p.exec op s).bind fun r => (f r.1).exec op r.2 := by
  induction p generalizing s with
  | done a => rfl
  | call i k ih =>
    change (op i s).bind _ = ((op i s).bind _).bind _
    rw [Option.bind_assoc]
    exact congrArg _ (funext fun r => ih r.1 r.2)

theorem exec_forEach (op : (i : ι) → σ → Option (ρ i × σ)) (body : α → β → Proc ι ρ α)
    (bs : List β) (a : α) (s : σ) :
    (forEach body a bs).exec op s = bs.foldlM (fun p b => (body p.1 b).exec op p.2) (a, s) := by
  induction bs generalizing a s with
  | nil => rfl
  | cons b bs ih =>
    rw [forEach, exec_bind, List.foldlM_cons]
    exact congrArg _ (funext fun r => ih r.1 r.2)

end Proc
