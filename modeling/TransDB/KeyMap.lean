/-
Collecting something from every entry of a key-value map.

`collect f s` concatenates `f key value` over the entries of `s`. As a multiset it
changes with the map only at the key that changes: `collect_perm` takes an entry
out, `collect_insert` puts one in. A program that keeps resources in maps says
which resources it holds with `collect`, and an update of a map then moves
exactly the resources of one key.
-/
import Mathlib.Data.List.AList
import Mathlib.Data.List.Perm.Basic

set_option autoImplicit false

namespace KeyMap

variable {α β γ : Type} [DecidableEq α] {s : AList fun _ : α => β} {a : α} {b : β}

theorem mem_entries : (⟨a, b⟩ : (_ : α) × β) ∈ s.entries ↔ s.lookup a = some b :=
  (List.mem_dlookup_iff s.nodupKeys).symm

theorem entries_erase_of_none (h : s.lookup a = none) : (s.erase a).entries = s.entries :=
  List.kerase_of_notMem_keys (AList.lookup_eq_none.mp h)

/-- An entry taken out of the list of entries. -/
theorem entries_perm (h : s.lookup a = some b) :
    s.entries.Perm (⟨a, b⟩ :: (s.erase a).entries) := by
  have hmem : a ∈ s.entries.keys := AList.lookup_isSome.mp (by rw [h]; rfl)
  obtain ⟨b', l₁, l₂, hl₁, hl, hk⟩ := List.exists_of_kerase hmem
  have hb : b' = b := by
    have hlook : s.lookup a = some b' := by
      refine mem_entries.mp ?_
      rw [hl]
      exact List.mem_append_right _ List.mem_cons_self
    rw [h] at hlook
    exact (Option.some.inj hlook).symm
  have herase : (s.erase a).entries = l₁ ++ l₂ := hk
  rw [herase, hl, hb]
  exact List.perm_middle

theorem length_erase (h : a ∈ s) : (s.erase a).entries.length + 1 = s.entries.length := by
  obtain ⟨b, hb⟩ := Option.isSome_iff_exists.mp (AList.lookup_isSome.mpr h)
  rw [(entries_perm hb).length_eq, List.length_cons]

/-- An update replaces an entry. -/
theorem length_insert_of_mem (h : a ∈ s) (b : β) :
    (s.insert a b).entries.length = s.entries.length :=
  length_erase h

/-- A new key is one entry more. -/
theorem length_insert_of_not_mem (h : a ∉ s) (b : β) :
    (s.insert a b).entries.length = s.entries.length + 1 := by
  rw [show (s.insert a b).entries = ⟨a, b⟩ :: (s.erase a).entries from rfl, List.length_cons,
    entries_erase_of_none (AList.lookup_eq_none.mpr h)]

/-- What all the entries have, one after another. -/
def collect (f : α → β → List γ) (s : AList fun _ : α => β) : List γ :=
  s.entries.flatMap fun e => f e.1 e.2

variable {f : α → β → List γ}

omit [DecidableEq α] in
theorem collect_empty : collect f ∅ = [] := rfl

theorem mem_collect {x : γ} : x ∈ collect f s ↔ ∃ a b, s.lookup a = some b ∧ x ∈ f a b := by
  rw [collect, List.mem_flatMap]
  constructor
  · rintro ⟨⟨a, b⟩, he, hx⟩
    exact ⟨a, b, mem_entries.mp he, hx⟩
  · rintro ⟨a, b, he, hx⟩
    exact ⟨⟨a, b⟩, mem_entries.mpr he, hx⟩

theorem collect_insert : collect f (s.insert a b) = f a b ++ collect f (s.erase a) := rfl

theorem collect_erase_of_none (h : s.lookup a = none) : collect f (s.erase a) = collect f s := by
  rw [collect, collect, entries_erase_of_none h]

theorem collect_perm (h : s.lookup a = some b) :
    (collect f s).Perm (f a b ++ collect f (s.erase a)) :=
  (entries_perm h).flatMap_right _

/-- Replacing a value by one that has the same changes nothing. -/
theorem collect_insert_same {b' : β} (h : s.lookup a = some b) (hf : f a b' = f a b) :
    (collect f (s.insert a b')).Perm (collect f s) := by
  rw [collect_insert, hf]
  exact (collect_perm h).symm

/-- The values, listed by their keys in any order. -/
theorem lookup_keys_perm {keys : List α} (hk : keys.Perm s.keys) :
    (keys.filterMap s.lookup).Perm (s.entries.map fun e => e.2) := by
  refine (hk.filterMap s.lookup).trans (List.Perm.of_eq ?_)
  have hkeys : s.keys = s.entries.map fun e => e.1 := rfl
  rw [hkeys, List.filterMap_map, ← List.filterMap_eq_map]
  exact List.filterMap_congr fun e he => mem_entries.mp he

omit [DecidableEq α] in
/-- What depends on the value only. -/
theorem collect_eq {g : β → List γ} :
    collect (fun _ => g) s = (s.entries.map fun e => e.2).flatMap g := by
  rw [collect, List.flatMap_map]

omit [DecidableEq α] in
/-- When the things of an entry name its key, and none twice, nothing is named
twice in the whole map. -/
theorem collect_nodup {g : γ → α} (hg : ∀ a b, ∀ c ∈ f a b, g c = a)
    (hf : ∀ a b, ((f a b).map g).Nodup) : ((collect f s).map g).Nodup := by
  rw [collect, List.map_flatMap, List.nodup_flatMap]
  refine ⟨fun e _ => hf e.1 e.2, ?_⟩
  have hkeys : s.entries.Pairwise fun e e' => e.1 ≠ e'.1 := List.pairwise_map.mp s.nodupKeys
  refine hkeys.imp ?_
  intro e e' hne k hk hk'
  obtain ⟨c, hc, rfl⟩ := List.mem_map.mp hk
  obtain ⟨c', hc', heq⟩ := List.mem_map.mp hk'
  rw [hg e.1 e.2 c hc, hg e'.1 e'.2 c' hc'] at heq
  exact hne heq.symm

end KeyMap
