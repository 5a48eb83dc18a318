/-
`LRUCache.cpp`: a doubly linked list of keys and a hash map into it.

The list is modelled with its pointers: nodes live in a heap, `malloc` takes an
address that was never used, `free` takes the node out, and following a pointer
to nothing is undefined behaviour (`none`). The second half says what the
pointers spell: `IsList c l` means that the chain of `c` is the list of keys `l`,
and each operation is then an operation on `l`: `put` moves a key to the end,
`remove` takes it out, `get` reads the front.
-/
import Mathlib.Data.List.AList
import Mathlib.Data.List.Nodup
import Mathlib.Logic.Function.Basic

set_option autoImplicit false

namespace TransDB

/-- `CRec` -/
structure CRec where
  m_key : UInt64
  m_pPrev : Option ℕ
  m_pNext : Option ℕ
  deriving DecidableEq, Repr

/-- `LRUCache`, with the heap its nodes live in. -/
structure LRUCache where
  heap : ℕ → Option CRec
  /-- The addresses from here on have never been allocated. -/
  brk : ℕ
  m_last : Option ℕ
  m_first : Option ℕ
  m_pMap : AList fun _ : UInt64 => ℕ

namespace LRUCache

/-- A fresh cache. -/
def empty : LRUCache where
  heap _ := none
  brk := 0
  m_last := none
  m_first := none
  m_pMap := ∅

/-! ## The functions of `LRUCache.cpp` -/

/-- `p->m_pNext = v` -/
def setNext (c : LRUCache) (p : ℕ) (v : Option ℕ) : Option LRUCache := do
  let r ← c.heap p
  return { c with heap := Function.update c.heap p (some { r with m_pNext := v }) }

/-- `p->m_pPrev = v` -/
def setPrev (c : LRUCache) (p : ℕ) (v : Option ℕ) : Option LRUCache := do
  let r ← c.heap p
  return { c with heap := Function.update c.heap p (some { r with m_pPrev := v }) }

/-- `free(p)` -/
def free (c : LRUCache) (p : ℕ) : LRUCache := { c with heap := Function.update c.heap p none }

/-- `LRUCache::ChangeChain` -/
def ChangeChain (c : LRUCache) (pCRecFind : ℕ) : Option LRUCache := do
  --change chain
  let c ←
    if some pCRecFind = c.m_first then do
      let r ← c.heap pCRecFind
      let c := { c with m_first := r.m_pNext }
      match r.m_pNext with
      | some p => c.setPrev p none
      | none => some c
    else some c
  let c ←
    if some pCRecFind = c.m_last then do
      let r ← c.heap pCRecFind
      some { c with m_last := r.m_pPrev }
    else some c
  let r ← c.heap pCRecFind
  match r.m_pPrev with
  | none => some c
  | some p => do
    let c ← c.setNext p r.m_pNext
    match r.m_pNext with
    | none => some c
    | some q => c.setPrev q r.m_pPrev

/-- The part of `put` that appends a new node. -/
def append (c : LRUCache) (x : UInt64) : Option LRUCache := do
  let p := c.brk
  --init 1st
  let m_first := match c.m_first with
    | some q => some q
    | none => some p
  let c := { c with
    brk := c.brk + 1
    m_first := m_first
    heap := Function.update c.heap p (some ⟨x, c.m_last, none⟩) }
  --set last
  let c ← match c.m_last with
    | some q => c.setNext q (some p)
    | none => some c
  return { c with m_last := some p, m_pMap := c.m_pMap.insert x p }

/-- `LRUCache::put` -/
def put (c : LRUCache) (x : UInt64) : Option LRUCache := do
  let c ← match c.m_pMap.lookup x with
    | some p => do
      let c ← c.ChangeChain p
      some (c.free p)
    | none => some c
  c.append x

/-- `LRUCache::remove` -/
def remove (c : LRUCache) (x : UInt64) : Option (Bool × LRUCache) :=
  match c.m_pMap.lookup x with
  | some p => do
    let c ← c.ChangeChain p
    let c := c.free p
    return (true, { c with m_pMap := c.m_pMap.erase x })
  | none => some (false, c)

/-- `LRUCache::get`: the oldest key, if there is one. -/
def get (c : LRUCache) : Option (Option UInt64) :=
  match c.m_first with
  | some p => do
    let r ← c.heap p
    return some r.m_key
  | none => some none

/-- `LRUCache::size` -/
def size (c : LRUCache) : ℕ := c.m_pMap.entries.length

/-! ## The chain

`Seg h prev ns nxt`: the nodes `ns` (address and key) are linked in the heap `h`,
with `prev` in front of the first and `nxt` behind the last. -/

/-- The first address, or `nxt`. -/
def headPtr : List (ℕ × UInt64) → Option ℕ → Option ℕ
  | [], nxt => nxt
  | (p, _) :: _, _ => some p

/-- The last address, or `prev`. -/
def lastPtr : Option ℕ → List (ℕ × UInt64) → Option ℕ
  | prev, [] => prev
  | _, (p, _) :: ns => lastPtr (some p) ns

def Seg (h : ℕ → Option CRec) : Option ℕ → List (ℕ × UInt64) → Option ℕ → Prop
  | _, [], _ => True
  | prev, (p, k) :: ns, nxt => h p = some ⟨k, prev, headPtr ns nxt⟩ ∧ Seg h (some p) ns nxt

theorem headPtr_append (a b : List (ℕ × UInt64)) (nxt : Option ℕ) :
    headPtr (a ++ b) nxt = headPtr a (headPtr b nxt) := by
  cases a <;> rfl

theorem lastPtr_append (prev : Option ℕ) (a b : List (ℕ × UInt64)) :
    lastPtr prev (a ++ b) = lastPtr (lastPtr prev a) b := by
  induction a generalizing prev with
  | nil => rfl
  | cons n a ih => exact ih (some n.1)

theorem Seg_append {h : ℕ → Option CRec} {a b : List (ℕ × UInt64)} {prev nxt : Option ℕ} :
    Seg h prev (a ++ b) nxt
      ↔ Seg h prev a (headPtr b nxt) ∧ Seg h (lastPtr prev a) b nxt := by
  induction a generalizing prev with
  | nil => exact (iff_of_eq (true_and _)).symm
  | cons n a ih =>
    rw [List.cons_append, Seg, Seg, ih, headPtr_append, and_assoc]
    rfl

/-- A segment only depends on its own nodes. -/
theorem Seg_congr {h h' : ℕ → Option CRec} {ns : List (ℕ × UInt64)} {prev nxt : Option ℕ}
    (hh : ∀ p ∈ ns.map Prod.fst, h' p = h p) (hs : Seg h prev ns nxt) : Seg h' prev ns nxt := by
  induction ns generalizing prev with
  | nil => trivial
  | cons n ns ih =>
    refine ⟨(hh n.1 List.mem_cons_self).trans hs.1, ih ?_ hs.2⟩
    intro p hp
    exact hh p (List.mem_cons_of_mem _ hp)

theorem Seg_update {h : ℕ → Option CRec} {ns : List (ℕ × UInt64)} {prev nxt : Option ℕ} {p : ℕ}
    (v : Option CRec) (hp : p ∉ ns.map Prod.fst) (hs : Seg h prev ns nxt) :
    Seg (Function.update h p v) prev ns nxt := by
  refine Seg_congr (fun q hq => Function.update_of_ne ?_ _ _) hs
  intro hqp
  exact hp (hqp ▸ hq)

/-- Redirecting the last node to what is now behind the segment. -/
theorem Seg_setLast {h : ℕ → Option CRec} {a : List (ℕ × UInt64)} {prev nxt : Option ℕ} {q : ℕ}
    {k : UInt64} (nxt' : Option ℕ) (hq : q ∉ a.map Prod.fst)
    (hs : Seg h prev (a ++ [(q, k)]) nxt) :
    Seg (Function.update h q (some ⟨k, lastPtr prev a, nxt'⟩)) prev (a ++ [(q, k)]) nxt' := by
  rw [Seg_append] at hs ⊢
  exact ⟨Seg_update _ hq hs.1, Function.update_self _ _ _, trivial⟩

/-- Redirecting the first node to what is now in front of the segment. -/
theorem Seg_setHead {h : ℕ → Option CRec} {b : List (ℕ × UInt64)} {prev nxt : Option ℕ} {q : ℕ}
    {k : UInt64} (prev' : Option ℕ) (hq : q ∉ b.map Prod.fst) (hs : Seg h prev ((q, k) :: b) nxt) :
    Seg (Function.update h q (some ⟨k, prev', headPtr b nxt⟩)) prev' ((q, k) :: b) nxt :=
  ⟨Function.update_self _ _ _, Seg_update _ hq hs.2⟩

theorem headPtr_ne {ns : List (ℕ × UInt64)} {nxt : Option ℕ} {p : ℕ} (hn : nxt ≠ some p)
    (hp : p ∉ ns.map Prod.fst) : some p ≠ headPtr ns nxt := by
  cases ns with
  | nil => exact hn.symm
  | cons n ns =>
    intro he
    exact hp (by rw [Option.some.inj he]; exact List.mem_cons_self)

theorem lastPtr_ne {ns : List (ℕ × UInt64)} {prev : Option ℕ} {p : ℕ} (hn : prev ≠ some p)
    (hp : p ∉ ns.map Prod.fst) : some p ≠ lastPtr prev ns := by
  induction ns generalizing prev with
  | nil => exact hn.symm
  | cons n ns ih =>
    rw [List.map_cons, List.mem_cons, not_or] at hp
    exact ih (fun he => hp.1 (Option.some.inj he).symm) hp.2

/-- The chain of the cache is `ns`. -/
structure Chain (c : LRUCache) (ns : List (ℕ × UInt64)) : Prop where
  seg : Seg c.heap none ns none
  first : c.m_first = headPtr ns none
  last : c.m_last = lastPtr none ns
  nodup : (ns.map Prod.fst).Nodup
  fresh : ∀ p ∈ ns.map Prod.fst, p < c.brk

/-- Unlinking and freeing a node takes it out of the chain. The four cases are
those of the code: is there a node in front, is there one behind. -/
theorem ChangeChain_spec {c : LRUCache} {pre post : List (ℕ × UInt64)} {p : ℕ} {k : UInt64}
    (h : c.Chain (pre ++ (p, k) :: post)) :
    ∃ c', c.ChangeChain p = some c' ∧ (c'.free p).Chain (pre ++ post)
      ∧ c'.m_pMap = c.m_pMap := by
  have hsub : (pre ++ post).map Prod.fst = pre.map Prod.fst ++ post.map Prod.fst :=
    List.map_append
  have hnd := h.nodup
  rw [List.map_append, List.map_cons, List.nodup_middle, List.nodup_cons, ← List.map_append] at hnd
  have hfresh : ∀ q ∈ (pre ++ post).map Prod.fst, q < c.brk := by
    intro q hq
    apply h.fresh
    rw [hsub, List.mem_append] at hq
    rw [List.map_append, List.map_cons, List.mem_append, List.mem_cons]
    rcases hq with hq | hq
    · exact Or.inl hq
    · exact Or.inr (Or.inr hq)
  have hppre : p ∉ pre.map Prod.fst := fun hp => hnd.1 (by rw [hsub]; exact List.mem_append_left _ hp)
  have hppost : p ∉ post.map Prod.fst :=
    fun hp => hnd.1 (by rw [hsub]; exact List.mem_append_right _ hp)
  obtain ⟨hpre, hp, hpost⟩ := Seg_append.mp h.seg
  have hfirst := h.first
  have hlast := h.last
  rw [headPtr_append] at hfirst
  rw [lastPtr_append] at hlast
  rcases List.eq_nil_or_concat pre with rfl | ⟨pre, ⟨q, kq⟩, rfl⟩
  · cases post with
    | nil =>
      refine ⟨{ c with m_first := none, m_last := none }, ?_,
        ⟨trivial, rfl, rfl, hnd.2, hfresh⟩, rfl⟩
      have hf : c.m_first = some p := hfirst
      have hl : c.m_last = some p := hlast
      have hp' : c.heap p = some ⟨k, none, none⟩ := hp
      simp only [ChangeChain, hf, hl, hp', Option.bind_eq_bind, Option.bind_some, if_true]
    | cons n post =>
      obtain ⟨q, kq⟩ := n
      obtain ⟨hq, hrest⟩ := hpost
      have hpq : p ≠ q := fun he => hppost (by rw [he]; exact List.mem_cons_self)
      have hf : c.m_first = some p := hfirst
      have hp' : c.heap p = some ⟨k, none, some q⟩ := hp
      have hl : c.m_last = lastPtr (some q) post := hlast
      have hlp : some p ≠ c.m_last := by
        rw [hl]
        exact lastPtr_ne (fun he => hpq (Option.some.inj he).symm)
          (fun hm => hppost (List.mem_cons_of_mem _ hm))
      have hqpost : q ∉ post.map Prod.fst := (List.nodup_cons.mp hnd.2).1
      obtain ⟨h1, hh1⟩ : ∃ h1, h1 = Function.update c.heap q
          (some ⟨kq, none, headPtr post none⟩) := ⟨_, rfl⟩
      have hp1 : h1 p = some ⟨k, none, some q⟩ := by
        rw [hh1, Function.update_of_ne hpq]
        exact hp'
      refine ⟨{ c with m_first := some q, heap := h1 }, ?_, ⟨?_, rfl, hlast, hnd.2, hfresh⟩, rfl⟩
      · simp only [ChangeChain, hf, hp', setPrev, hq, Option.bind_eq_bind, Option.bind_some,
          Option.pure_def, if_true, if_neg hlp, ← hh1, hp1]
      · have hseg := Seg_setHead none hqpost
          (⟨hq, hrest⟩ : Seg c.heap (some p) ((q, kq) :: post) none)
        rw [← hh1] at hseg
        exact Seg_update none hppost hseg
  · rw [List.concat_eq_append] at *
    have hlq : lastPtr none (pre ++ [(q, kq)]) = some q := lastPtr_append _ _ _
    rw [hlq] at hp hlast
    obtain ⟨hpre1, hq, -⟩ := Seg_append.mp hpre
    have hqpre : q ∉ pre.map Prod.fst := by
      have hnd' := h.nodup
      rw [List.map_append, List.map_append, List.append_assoc] at hnd'
      exact fun hm => (List.nodup_append.mp hnd').2.2 q hm q List.mem_cons_self rfl
    have hqp : q ≠ p := by
      intro he
      apply hppre
      rw [List.map_append, he]
      exact List.mem_append_right _ List.mem_cons_self
    have hfp : some p ≠ c.m_first := by
      rw [hfirst, headPtr_append]
      refine headPtr_ne (fun he => hqp (Option.some.inj he)) ?_
      intro hm
      apply hppre
      rw [List.map_append]
      exact List.mem_append_left _ hm
    have hfirst' : c.m_first = headPtr pre (some q) := by
      rw [hfirst, headPtr_append]
      rfl
    have hq' : c.heap q = some ⟨kq, lastPtr none pre, some p⟩ := hq
    cases post with
    | nil =>
      have hl : c.m_last = some p := hlast
      have hp' : c.heap p = some ⟨k, some q, none⟩ := hp
      obtain ⟨h1, hh1⟩ : ∃ h1, h1 = Function.update c.heap q
          (some ⟨kq, lastPtr none pre, none⟩) := ⟨_, rfl⟩
      refine ⟨{ c with m_last := some q, heap := h1 }, ?_,
        ⟨?_, ?_, ?_, hnd.2, hfresh⟩, rfl⟩
      · simp only [ChangeChain, if_neg hfp, hl, hp', setNext, hq', Option.bind_eq_bind,
          Option.bind_some, Option.pure_def, if_true, ← hh1]
      · have hseg := Seg_setLast none hqpre hpre
        rw [← hh1] at hseg
        rw [List.append_nil]
        exact Seg_update none hppre hseg
      · rw [List.append_nil, headPtr_append]
        exact hfirst'
      · rw [List.append_nil, hlq]
        rfl
    | cons n post =>
      obtain ⟨r, kr⟩ := n
      have hr := hpost.1
      have hp' : c.heap p = some ⟨k, some q, some r⟩ := hp
      have hnd2 := hnd.2
      rw [List.map_append, List.nodup_append] at hnd2
      have hrpost : r ∉ post.map Prod.fst := (List.nodup_cons.mp hnd2.2.1).1
      have hrpre : r ∉ (pre ++ [(q, kq)]).map Prod.fst :=
        fun hm => hnd2.2.2 r hm r List.mem_cons_self rfl
      have hqpost : q ∉ ((r, kr) :: post).map Prod.fst := by
        refine fun hm => hnd2.2.2 q ?_ q hm rfl
        rw [List.map_append]
        exact List.mem_append_right _ List.mem_cons_self
      have hrq : r ≠ q := fun he => hqpost (by rw [← he]; exact List.mem_cons_self)
      have hl : some p ≠ c.m_last := by
        have hl' : c.m_last = lastPtr (some r) post := hlast
        rw [hl']
        exact lastPtr_ne (fun he => hppost (by rw [Option.some.inj he]; exact List.mem_cons_self))
          (fun hm => hppost (List.mem_cons_of_mem _ hm))
      obtain ⟨h1, hh1⟩ : ∃ h1, h1 = Function.update c.heap q
          (some ⟨kq, lastPtr none pre, some r⟩) := ⟨_, rfl⟩
      obtain ⟨h2, hh2⟩ : ∃ h2, h2 = Function.update h1 r
          (some ⟨kr, some q, headPtr post none⟩) := ⟨_, rfl⟩
      have hr1 : h1 r = some ⟨kr, some p, headPtr post none⟩ := by
        rw [hh1, Function.update_of_ne hrq]
        exact hr
      refine ⟨{ c with heap := h2 }, ?_, ⟨?_, ?_, ?_, hnd.2, hfresh⟩, rfl⟩
      · simp only [ChangeChain, if_neg hfp, if_neg hl, hp', setNext, setPrev, hq', hr1,
          Option.bind_eq_bind, Option.bind_some, Option.pure_def, ← hh1, ← hh2]
      · refine Seg_update none hnd.1 ?_
        rw [Seg_append, hlq]
        constructor
        · rw [hh2, hh1]
          exact Seg_update _ hrpre (Seg_setLast (some r) hqpre hpre)
        · have hright := Seg_update (some ⟨kq, lastPtr none pre, some r⟩) hqpost hpost
          rw [← hh1] at hright
          rw [hh2]
          exact Seg_setHead (some q) hrpost hright
      · show c.m_first = _
        rw [headPtr_append, headPtr_append]
        exact hfirst'
      · show c.m_last = _
        rw [lastPtr_append, hlq]
        exact hlast

/-- Appending a node. -/
theorem append_spec {c : LRUCache} {ns : List (ℕ × UInt64)} (h : c.Chain ns) (x : UInt64) :
    ∃ c', c.append x = some c' ∧ c'.Chain (ns ++ [(c.brk, x)])
      ∧ c'.m_pMap = c.m_pMap.insert x c.brk := by
  have hbrk : c.brk ∉ ns.map Prod.fst := fun hm => Nat.lt_irrefl _ (h.fresh _ hm)
  have hmap : (ns ++ [(c.brk, x)]).map Prod.fst = ns.map Prod.fst ++ [c.brk] := List.map_append
  have hnodup : ((ns ++ [(c.brk, x)]).map Prod.fst).Nodup := by
    rw [hmap]
    refine List.nodup_append.mpr ⟨h.nodup, List.nodup_singleton _, ?_⟩
    intro p hp q hq hpq
    rw [List.mem_singleton.mp hq] at hpq
    exact hbrk (hpq ▸ hp)
  have hfresh : ∀ p ∈ (ns ++ [(c.brk, x)]).map Prod.fst, p < c.brk + 1 := by
    intro p hp
    rw [hmap, List.mem_append, List.mem_singleton] at hp
    rcases hp with hp | rfl
    · exact Nat.lt_succ_of_lt (h.fresh p hp)
    · exact Nat.lt_succ_self _
  rcases List.eq_nil_or_concat ns with rfl | ⟨pre, ⟨q, kq⟩, rfl⟩
  · have hf : c.m_first = none := h.first
    have hl : c.m_last = none := h.last
    refine ⟨⟨Function.update c.heap c.brk (some ⟨x, none, none⟩), c.brk + 1, some c.brk,
      some c.brk, c.m_pMap.insert x c.brk⟩, ?_, ⟨?_, ?_, ?_, hnodup, hfresh⟩, rfl⟩
    · simp only [append, hf, hl, Option.bind_eq_bind, Option.bind_some, Option.pure_def]
    · exact ⟨Function.update_self _ _ _, trivial⟩
    · rfl
    · rfl
  · rw [List.concat_eq_append] at *
    have hf := h.first
    have hl : c.m_last = some q := h.last.trans (lastPtr_append _ _ _)
    have hqbrk : q ≠ c.brk := by
      intro he
      apply hbrk
      rw [← he, List.map_append]
      exact List.mem_append_right _ List.mem_cons_self
    have hqpre : q ∉ pre.map Prod.fst := by
      have hnd := h.nodup
      rw [List.map_append] at hnd
      exact fun hm => (List.nodup_append.mp hnd).2.2 q hm q List.mem_cons_self rfl
    have hq : c.heap q = some ⟨kq, lastPtr none pre, none⟩ := (Seg_append.mp h.seg).2.1
    obtain ⟨h1, hh1⟩ : ∃ h1, h1 = Function.update c.heap c.brk (some ⟨x, some q, none⟩) := ⟨_, rfl⟩
    have hq1 : h1 q = some ⟨kq, lastPtr none pre, none⟩ := by
      rw [hh1, Function.update_of_ne hqbrk]
      exact hq
    obtain ⟨h2, hh2⟩ : ∃ h2, h2 = Function.update h1 q
        (some ⟨kq, lastPtr none pre, some c.brk⟩) := ⟨_, rfl⟩
    obtain ⟨a, ha⟩ : ∃ a, ∀ nxt, headPtr (pre ++ [(q, kq)]) nxt = some a := by
      cases pre with
      | nil => exact ⟨q, fun _ => rfl⟩
      | cons n pre => exact ⟨n.1, fun _ => rfl⟩
    rw [ha] at hf
    refine ⟨⟨h2, c.brk + 1, some c.brk, some a, c.m_pMap.insert x c.brk⟩, ?_,
      ⟨?_, ?_, ?_, hnodup, hfresh⟩, rfl⟩
    · simp only [append, hf, hl, setNext, ← hh1, hq1, ← hh2, Option.bind_eq_bind, Option.bind_some,
        Option.pure_def]
    · have hlq : lastPtr none (pre ++ [(q, kq)]) = some q := lastPtr_append _ _ _
      show Seg h2 none (pre ++ [(q, kq)] ++ [(c.brk, x)]) none
      rw [Seg_append, hlq]
      constructor
      · rw [hh2, hh1]
        exact Seg_setLast (some c.brk) hqpre (Seg_update _ hbrk h.seg)
      · refine ⟨?_, trivial⟩
        rw [hh2, Function.update_of_ne hqbrk.symm, hh1]
        exact Function.update_self _ _ _
    · rw [headPtr_append, ha]
    · rw [lastPtr_append]
      rfl

/-! ## The cache as a list of keys -/

/-- The cache is the list of keys `l`, oldest first, each once, and the map leads
from each key to its node. -/
def IsList (c : LRUCache) (l : List UInt64) : Prop :=
  ∃ ns : List (ℕ × UInt64), c.Chain ns ∧ ns.map Prod.snd = l ∧ l.Nodup
    ∧ ∀ k p, c.m_pMap.lookup k = some p ↔ (p, k) ∈ ns

namespace IsList

variable {c : LRUCache} {l : List UInt64}

theorem nodup (h : c.IsList l) : l.Nodup := by
  obtain ⟨_, _, _, hnd, _⟩ := h
  exact hnd

theorem mem_map (h : c.IsList l) {k : UInt64} : k ∈ c.m_pMap ↔ k ∈ l := by
  obtain ⟨ns, -, hkeys, -, hmap⟩ := h
  rw [← AList.lookup_isSome, Option.isSome_iff_exists, ← hkeys, List.mem_map]
  constructor
  · rintro ⟨p, hp⟩
    exact ⟨(p, k), (hmap k p).mp hp, rfl⟩
  · rintro ⟨⟨p, k'⟩, hp, rfl⟩
    exact ⟨p, (hmap _ p).mpr hp⟩

theorem empty : LRUCache.empty.IsList [] := by
  refine ⟨[], ⟨trivial, rfl, rfl, List.nodup_nil, ?_⟩, rfl, List.nodup_nil, ?_⟩
  · intro p hp
    cases hp
  · intro k p
    constructor
    · intro h
      cases h
    · intro h
      cases h

/-- A present key splits the chain at its node. -/
theorem split (h : c.IsList l) {x : UInt64} {p : ℕ} (hp : c.m_pMap.lookup x = some p) :
    ∃ pre post : List (ℕ × UInt64), c.Chain (pre ++ (p, x) :: post)
      ∧ l = pre.map Prod.snd ++ x :: post.map Prod.snd
      ∧ x ∉ (pre ++ post).map Prod.snd ∧ ((pre ++ post).map Prod.snd).Nodup
      ∧ ∀ k q, k ≠ x → (c.m_pMap.lookup k = some q ↔ (q, k) ∈ pre ++ post) := by
  obtain ⟨ns, hc, hkeys, hnd, hmap⟩ := h
  obtain ⟨pre, post, rfl⟩ := List.append_of_mem ((hmap x p).mp hp)
  rw [List.map_append, List.map_cons] at hkeys
  rw [← hkeys, List.nodup_middle, List.nodup_cons, ← List.map_append] at hnd
  refine ⟨pre, post, hc, hkeys.symm, hnd.1, hnd.2, fun k q hk => ?_⟩
  rw [hmap, List.mem_append, List.mem_append, List.mem_cons, Prod.mk.injEq]
  simp only [hk, and_false, false_or]

/-- `remove` takes the key out and says whether it was there. -/
theorem remove (h : c.IsList l) (x : UInt64) :
    ∃ c', c.remove x = some (decide (x ∈ l), c') ∧ c'.IsList (l.erase x) := by
  rcases hp : c.m_pMap.lookup x with _ | p
  · have hx : x ∉ l := fun hx => AList.lookup_eq_none.mp hp (h.mem_map.mpr hx)
    refine ⟨c, ?_, ?_⟩
    · rw [LRUCache.remove, hp]
      simp only [hx, decide_false]
    · rw [List.erase_of_not_mem hx]
      exact h
  · obtain ⟨pre, post, hc, hl, hx, hnd, hmap⟩ := h.split hp
    obtain ⟨c', hcc, hc', hm⟩ := ChangeChain_spec hc
    have hxl : x ∈ l := by
      rw [hl]
      exact List.mem_append_right _ List.mem_cons_self
    have herase : l.erase x = (pre ++ post).map Prod.snd := by
      rw [List.map_append, List.mem_append, not_or] at hx
      rw [hl, List.erase_append_right _ hx.1, List.erase_cons_head, List.map_append]
    refine ⟨{ c'.free p with m_pMap := c'.m_pMap.erase x }, ?_, pre ++ post,
      ⟨hc'.seg, hc'.first, hc'.last, hc'.nodup, hc'.fresh⟩, herase.symm, ?_, ?_⟩
    · simp only [LRUCache.remove, hp, hcc, Option.bind_eq_bind, Option.bind_some, hxl, decide_true]
      rfl
    · rw [herase]
      exact hnd
    · intro k q
      show (c'.m_pMap.erase x).lookup k = some q ↔ _
      by_cases hk : k = x
      · subst hk
        rw [AList.lookup_erase]
        constructor
        · intro hq
          cases hq
        · intro hq
          exact absurd (List.mem_map_of_mem hq) hx
      · rw [AList.lookup_erase_ne hk, hm, hmap k q hk]

/-- `put` moves the key to the end. -/
theorem put (h : c.IsList l) (x : UInt64) :
    ∃ c', c.put x = some c' ∧ c'.IsList (l.erase x ++ [x]) := by
  -- the chain without the old node of `x`
  obtain ⟨c1, ns, hput, hc1, hkeys, hx, hnd, hmap⟩ : ∃ (c1 : LRUCache) (ns : List (ℕ × UInt64)),
      c.put x = c1.append x ∧ c1.Chain ns ∧ ns.map Prod.snd = l.erase x
        ∧ x ∉ ns.map Prod.snd ∧ (ns.map Prod.snd).Nodup
        ∧ ∀ k q, k ≠ x → (c1.m_pMap.lookup k = some q ↔ (q, k) ∈ ns) := by
    rcases hp : c.m_pMap.lookup x with _ | p
    · have hx : x ∉ l := fun hx => AList.lookup_eq_none.mp hp (h.mem_map.mpr hx)
      obtain ⟨ns, hc, hkeys, hnd, hmap⟩ := h
      refine ⟨c, ns, ?_, hc, ?_, ?_, ?_, fun k q _ => hmap k q⟩
      · simp only [LRUCache.put, hp, Option.bind_eq_bind, Option.bind_some]
      · rw [List.erase_of_not_mem hx, hkeys]
      · rw [hkeys]
        exact hx
      · rw [hkeys]
        exact hnd
    · obtain ⟨pre, post, hc, hl, hx, hnd, hmap⟩ := h.split hp
      obtain ⟨c', hcc, hc', hm⟩ := ChangeChain_spec hc
      refine ⟨c'.free p, pre ++ post, ?_, hc', ?_, hx, hnd, ?_⟩
      · simp only [LRUCache.put, hp, hcc, Option.bind_eq_bind, Option.bind_some]
      · rw [List.map_append, List.mem_append, not_or] at hx
        rw [hl, List.erase_append_right _ hx.1, List.erase_cons_head, List.map_append]
      · intro k q hk
        show c'.m_pMap.lookup k = some q ↔ _
        rw [hm, hmap k q hk]
  obtain ⟨c2, happ, hc2, hm2⟩ := append_spec hc1 x
  have hsnd : (ns ++ [(c1.brk, x)]).map Prod.snd = l.erase x ++ [x] := by
    rw [List.map_append, hkeys]
    rfl
  refine ⟨c2, hput.trans happ, ns ++ [(c1.brk, x)], hc2, hsnd, ?_, ?_⟩
  · rw [← hkeys]
    refine List.nodup_append.mpr ⟨hnd, List.nodup_singleton _, ?_⟩
    intro k hk k' hk' hkk
    rw [List.mem_singleton.mp hk'] at hkk
    exact hx (hkk ▸ hk)
  · intro k q
    rw [hm2, List.mem_append, List.mem_singleton, Prod.mk.injEq]
    by_cases hk : k = x
    · subst hk
      have hq : (q, k) ∉ ns := fun hq => hx (List.mem_map_of_mem hq)
      rw [AList.lookup_insert]
      simp only [hq, false_or, and_true, Option.some.injEq, eq_comm]
    · rw [AList.lookup_insert_ne hk, hmap k q hk]
      simp only [hk, and_false, or_false]

/-- `get` reads the oldest key. -/
theorem get (h : c.IsList l) : c.get = some l.head? := by
  obtain ⟨ns, hc, rfl, -, -⟩ := h
  cases ns with
  | nil =>
    have hf : c.m_first = none := hc.first
    rw [LRUCache.get, hf]
    rfl
  | cons n ns =>
    have hf : c.m_first = some n.1 := hc.first
    simp only [LRUCache.get, hf, hc.seg.1, Option.bind_eq_bind, Option.bind_some, List.map_cons,
      List.head?_cons]
    rfl

end IsList

end LRUCache

end TransDB
