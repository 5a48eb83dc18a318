/-
`LRUCache` over any sequence of `put` and `remove`.

The two chains of pointers visit the same nodes in opposite order, and the keys of these
nodes are the recency list of the calls: what has been put and not removed since, oldest
first. The map has just these keys, and `get` is the first.
-/
import TransDB.LRUCache
import TransDB.Recency

set_option autoImplicit false

namespace TransDB

namespace LRUCache

open Recency

/-- One call. -/
def call (c : LRUCache) : Op UInt64 → Option LRUCache
  | .put x => c.put x
  | .remove x => (c.remove x).map Prod.snd

/-- A sequence of calls on a fresh cache. -/
def run (calls : List (Op UInt64)) : Option LRUCache := calls.foldlM call empty

/-- The nodes that are met from `p` on when one pointer of each is followed to the end. -/
def Visits (c : LRUCache) (along : CRec → Option ℕ) : Option ℕ → List (ℕ × UInt64) → Prop
  | p, [] => p = none
  | p, (q, k) :: ns =>
    p = some q ∧ ∃ r, c.heap q = some r ∧ r.m_key = k ∧ c.Visits along (along r) ns

/-- The cache after some calls; `ns` are its nodes, each an address and a key. -/
structure RecencyList (c : LRUCache) (calls : List (Op UInt64)) (ns : List (ℕ × UInt64)) :
    Prop where
  next : c.Visits CRec.m_pNext c.m_first ns
  prev : c.Visits CRec.m_pPrev c.m_last ns.reverse
  /-- No node is met twice, and no key. -/
  nodes : (ns.map Prod.fst).Nodup
  keys : (ns.map Prod.snd).Nodup
  present : ∀ x, x ∈ ns.map Prod.snd ↔ ∃ i, LastPut calls x i
  oldestFirst : (ns.map Prod.snd).Pairwise fun x y =>
    ∀ i j, LastPut calls x i → LastPut calls y j → i < j
  /-- The map leads from a key to its own node. -/
  map : ∀ x p, c.m_pMap.lookup x = some p ↔ (p, x) ∈ ns
  remove : ∀ x, ∃ removed c', c.remove x = some (removed, c')
    ∧ (removed = true ↔ ∃ i, LastPut calls x i)
  get : ∃ key, c.get = some key
    ∧ ∀ x, key = some x ↔ ∃ i, LastPut calls x i ∧ ∀ y j, LastPut calls y j → i ≤ j

section Chains

variable {c : LRUCache}

theorem visits_next {ns : List (ℕ × UInt64)} {prev : Option ℕ} (h : Seg c.heap prev ns none) :
    c.Visits CRec.m_pNext (headPtr ns none) ns := by
  induction ns generalizing prev with
  | nil => rfl
  | cons n ns ih => exact ⟨rfl, _, h.1, rfl, ih h.2⟩

theorem visits_prev {ns : List (ℕ × UInt64)} {nxt : Option ℕ} (h : Seg c.heap none ns nxt) :
    c.Visits CRec.m_pPrev (lastPtr none ns) ns.reverse := by
  induction ns using List.reverseRecOn generalizing nxt with
  | nil => rfl
  | append_singleton ns n ih =>
    obtain ⟨hfront, hn, -⟩ := Seg_append.mp h
    rw [lastPtr_append, List.reverse_append]
    exact ⟨rfl, _, hn, rfl, ih hfront⟩

end Chains

/-- After any calls the chain of the cache is the recency list. -/
theorem run_isList (calls : List (Op UInt64)) :
    ∃ c, run calls = some c ∧ c.IsList (recent calls) := by
  induction calls using List.reverseRecOn with
  | nil => exact ⟨empty, rfl, IsList.empty⟩
  | append_singleton calls op ih =>
    obtain ⟨c, hrun, hlist⟩ := ih
    have hcall : ∃ c', c.call op = some c' ∧ c'.IsList (touch (recent calls) op) := by
      cases op with
      | put x => exact hlist.put x
      | remove x =>
        obtain ⟨c', hremove, hlist'⟩ := hlist.remove x
        refine ⟨c', ?_, hlist'⟩
        rw [call, hremove]
        rfl
    obtain ⟨c', hcall, hlist'⟩ := hcall
    refine ⟨c', ?_, ?_⟩
    · rw [run, List.foldlM_append, ← run.eq_1, hrun, Option.bind_eq_bind, Option.bind_some,
        List.foldlM_cons, hcall]
      rfl
    · rw [recent_append]
      exact hlist'

/-- Every sequence of calls goes through, and leaves a recency list. -/
theorem recency_list (calls : List (Op UInt64)) :
    ∃ c ns, run calls = some c ∧ c.RecencyList calls ns := by
  obtain ⟨c, hrun, hlist⟩ := run_isList calls
  obtain ⟨ns, hchain, hkeys, hnodup, hmap⟩ := id hlist
  have hmem : ∀ x, x ∈ recent calls ↔ ∃ i, LastPut calls x i := fun _ => mem_recent
  refine ⟨c, ns, hrun, ?_, ?_, hchain.nodup, hkeys ▸ hnodup, fun x => ?_, ?_, hmap, fun x => ?_, ?_⟩
  · rw [hchain.first]
    exact visits_next hchain.seg
  · rw [hchain.last]
    exact visits_prev hchain.seg
  · rw [hkeys]
    exact hmem x
  · rw [hkeys]
    exact pairwise_recent calls
  · obtain ⟨c', hremove, -⟩ := hlist.remove x
    exact ⟨_, c', hremove, decide_eq_true_iff.trans (hmem x)⟩
  · exact ⟨_, hlist.get, fun x => head?_recent⟩

end LRUCache

end TransDB
