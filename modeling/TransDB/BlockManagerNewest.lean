/-
Which records a full X keeps.

The record key is a timestamp, so the limit should keep the largest keys. "Is the
new record older" is decided by comparing numbers, but the record that makes room
is the first of the tree, and the tree compares the bytes of the keys as they lie
in memory, the lowest first. Over a run of writes the two agree as long as the
first key of a full tree is also its smallest, or the new one is older than all.
-/
import TransDB.BlockManagerTerminates
import TransDB.Largest
import TransDB.Machine
import Mathlib.Data.Finset.Dedup

set_option autoImplicit false

namespace TransDB

namespace AvlTable

/-- The keys as numbers. -/
def numbers (t : AvlTable) : Finset ℕ := (t.keys.map UInt64.toNat).toFinset

theorem mem_numbers {t : AvlTable} {k : UInt64} : k.toNat ∈ t.numbers ↔ k ∈ t := by
  rw [numbers, List.mem_toFinset, List.mem_map]
  constructor
  · rintro ⟨k', hk', heq⟩
    exact UInt64.toNat_inj.mp heq ▸ AList.mem_keys.mpr hk'
  · intro hk
    exact ⟨k, AList.mem_keys.mp hk, rfl⟩

theorem exists_of_mem_numbers {t : AvlTable} {n : ℕ} (h : n ∈ t.numbers) :
    ∃ k : UInt64, k.toNat = n ∧ k ∈ t := by
  rw [numbers, List.mem_toFinset, List.mem_map] at h
  obtain ⟨k, hk, heq⟩ := h
  exact ⟨k, heq, AList.mem_keys.mpr hk⟩

theorem card_numbers (t : AvlTable) : t.numbers.card = t.count := by
  rw [numbers, List.toFinset_card_of_nodup, List.length_map, count, AList.keys, List.keys,
    List.length_map]
  exact (AList.keys_nodup t).map fun _ _ heq => UInt64.toNat_inj.mp heq

/-- Two tables with numbers that differ as their keys do. -/
theorem numbers_ext {t : AvlTable} {s : Finset ℕ} (hs : ∀ n ∈ s, ∃ k : UInt64, k.toNat = n)
    (h : ∀ k : UInt64, k ∈ t ↔ k.toNat ∈ s) : t.numbers = s := by
  ext n
  constructor
  · intro hn
    obtain ⟨k, rfl, hk⟩ := exists_of_mem_numbers hn
    exact (h k).mp hk
  · intro hn
    obtain ⟨k, rfl⟩ := hs n hn
    exact mem_numbers.mpr ((h k).mpr hn)

theorem exists_key {t : AvlTable} {key : UInt64} {n : ℕ} (hn : n ∈ insert key.toNat t.numbers) :
    ∃ k : UInt64, k.toNat = n := by
  rcases Finset.mem_insert.mp hn with rfl | hn
  · exact ⟨key, rfl⟩
  · obtain ⟨k, hk, -⟩ := exists_of_mem_numbers hn
    exact ⟨k, hk⟩

/-- The first key of the tree, by the comparator. -/
theorem first_eq {t : AvlTable} {k : UInt64} (hk : k ∈ t) (h : ∀ k' ∈ t, blockindex_le k k') :
    t.first = some k := by
  cases hks : t.inOrder with
  | nil => exact absurd (mem_inOrder.mpr hk) (hks ▸ List.not_mem_nil)
  | cons k' ks =>
    have hfirst : t.first = some k' := by rw [first, hks]; rfl
    have hsorted := t.inOrder_sorted
    rw [hks, List.pairwise_cons] at hsorted
    have hmem := mem_inOrder.mpr hk
    rw [hks, List.mem_cons] at hmem
    rcases hmem with rfl | hmem
    · exact hfirst
    · rw [hfirst, antisymm (hsorted.1 k hmem) (h k' (mem_of_first hfirst))]

end AvlTable

namespace Blman

/-! ## One turn of the limit -/

section Limit

variable {cfg : WriteCfg} {limit : ℕ} {t : AvlTable}

theorem countReaches_iff (hmax : limit < 2 ^ 31) (count : ℕ) :
    countReaches count limit = true ↔ limit ≤ count := by
  rw [countReaches, decide_eq_true_eq]
  omega

theorem countReaches_below (hmax : limit < 2 ^ 31) {count : ℕ} (hlt : count < limit) :
    countReaches count limit = false := by
  rw [Bool.eq_false_iff]
  exact fun hr => Nat.not_lt.mpr ((countReaches_iff hmax _).mp hr) hlt

/-- Below the limit phase 2 does nothing. -/
theorem limit_room (key : UInt64) (hcfg : cfg.RecordLimit = fun _ => (limit : Int))
    (hmax : limit < 2 ^ 31) (hlt : t.count < limit) :
    evictedBy cfg key t = [] ∧ refusedBy cfg key t = false := by
  have hreach : limitReached cfg t = false := by
    rw [limitReached, hcfg, countReaches_below hmax hlt, Bool.and_false]
  exact ⟨by rw [evictedBy, hreach]; rfl, by rw [refusedBy, hreach]; rfl⟩

/-- At the limit phase 2 looks at the first key only. -/
theorem limit_full (key : UInt64) (hen : cfg.EnableRecordLimit = true)
    (hcfg : cfg.RecordLimit = fun _ => (limit : Int)) (hmax : limit < 2 ^ 31)
    (hfull : t.count = limit) {f : UInt64} (hf : t.first = some f) :
    evictedBy cfg key t = (if key < f then [] else [f])
      ∧ refusedBy cfg key t = decide (key < f) := by
  have hreach : limitReached cfg t = true := by
    rw [limitReached, hen, hcfg, Bool.true_and]
    exact (countReaches_iff hmax _).mpr (Nat.le_of_eq hfull.symm)
  obtain ⟨ks, hks⟩ := List.head?_eq_some_iff.mp hf
  have hlen : ks.length + 1 = limit := by rw [← hfull, ← t.length_inOrder, hks, List.length_cons]
  have hfirst : countReaches (ks.length + 1) limit = true :=
    (countReaches_iff hmax _).mpr (Nat.le_of_eq hlen.symm)
  -- with one key less the test fails, so there is no second turn
  have hev : evicted (fun _ => (limit : Int)) key 1 ks = [] := by
    cases ks with
    | nil => rfl
    | cons k ks =>
      rw [List.length_cons] at hlen
      exact if_neg fun hh => by rw [countReaches_below hmax (by omega)] at hh; cases hh.1
  have href : refusedOld (fun _ => (limit : Int)) key 1 ks = false := by
    cases ks with
    | nil => rfl
    | cons k ks =>
      rw [List.length_cons] at hlen
      rw [refusedOld, countReaches_below hmax (by omega), Bool.false_and]
  rw [evictedBy, refusedBy, if_pos hreach, hreach, hcfg, hks]
  simp only [evicted, refusedOld, hfirst, hev, href, Bool.true_and, Bool.or_false, true_and]
  by_cases hlt : key < f
  · simp only [hlt, not_true_eq_false, if_false, if_true, and_true]
  · simp only [hlt, not_false_eq_true, if_false, if_true, and_true]

end Limit

/-! ## What a write does to the keys -/

section Write

variable {sh : Shared} {cfg : WriteCfg} {m m' : Blman} {key : UInt64} {record : List UInt8}
  {st : WriteStatus} {limit : ℕ}

/-- The key is there or there is room for it: all keys stay. -/
theorem Wrote.numbers_added (h : m.Inv) (hw : m.Wrote sh cfg key record st m')
    (hsize : record.length ≤ MAX_RECORD_SIZE)
    (hcfg : cfg.RecordLimit = fun _ => (limit : Int)) (hmax : limit < 2 ^ 31)
    (hlt : AvlTable.count (m.indexAfterUpdate key) < limit) :
    m'.blockIndex.numbers = insert key.toNat m.blockIndex.numbers := by
  obtain ⟨hev, href⟩ := limit_room key hcfg hmax hlt
  have hkeys : ∀ (f : RecordMap) (v : List UInt8), m'.Inv →
      m'.contents = Function.update f key (some v) →
      (∀ k, k ≠ key → (f k ≠ none ↔ k ∈ m.blockIndex)) →
      m'.blockIndex.numbers = insert key.toNat m.blockIndex.numbers := by
    intro f v hinv hcontents hf
    refine AvlTable.numbers_ext (fun n hn => AvlTable.exists_key hn) fun k => ?_
    rw [← hinv.contents_ne_none, hcontents, Finset.mem_insert, AvlTable.mem_numbers,
      UInt64.toNat_inj]
    by_cases hk : k = key
    · simp only [hk, Function.update_self, ne_eq, reduceCtorEq, not_false_eq_true, true_or]
    · rw [Function.update_of_ne hk, hf k hk]
      exact ⟨Or.inr, fun hh => hh.resolve_left hk⟩
  cases hw with
  | tooBig hbig => exact absurd hsize (Nat.not_le.mpr hbig)
  | updated _ _ _ _ hm =>
    exact hkeys _ _ hm.inv hm.contents fun k _ => h.contents_ne_none
  | refused _ _ _ _ _ _ hold =>
    rw [href] at hold
    cases hold
  | stored _ _ _ _ _ _ _ _ hinv hcontents _ _ =>
    rw [hev, RecordMap.removeKeys_nil] at hcontents
    refine hkeys _ _ hinv hcontents fun k hk => ?_
    rw [Function.update_of_ne hk, h.contents_ne_none]

/-- The tree is full and the key is new: it is refused, or takes the place of the
first key. -/
theorem Wrote.numbers_full (h : m.Inv) (hw : m.Wrote sh cfg key record st m')
    (hsize : record.length ≤ MAX_RECORD_SIZE) (hen : cfg.EnableRecordLimit = true)
    (hcfg : cfg.RecordLimit = fun _ => (limit : Int)) (hmax : limit < 2 ^ 31)
    (hfull : m.blockIndex.count = limit) (hkey : key ∉ m.blockIndex) {f : UInt64}
    (hf : m.blockIndex.first = some f) :
    m'.blockIndex.numbers = if key < f then m.blockIndex.numbers
      else insert key.toNat (m.blockIndex.numbers.erase f.toNat) := by
  have hidx : m.indexAfterUpdate key = m.blockIndex := AvlTable.erase_of_notMem hkey
  have hlim := limit_full key hen hcfg hmax hfull hf
  rw [← hidx] at hlim
  obtain ⟨hev, href⟩ := hlim
  have hnone : Function.update m.contents key none = m.contents :=
    Function.update_eq_self_iff.mpr (h.contents_eq_none.mpr hkey).symm
  cases hw with
  | tooBig hbig => exact absurd hsize (Nat.not_le.mpr hbig)
  | updated _ _ hin => exact absurd hin hkey
  | refused _ _ _ _ _ _ hold hsame _ =>
    rw [href] at hold
    have hlt : key < f := of_decide_eq_true hold
    rw [if_pos hlt] at hev
    rw [if_pos hlt, hsame hkey hev]
  | stored _ _ _ _ _ _ hold _ hinv hcontents _ _ =>
    rw [href] at hold
    have hlt : ¬ key < f := of_decide_eq_false hold
    rw [hev, if_neg hlt, hnone] at hcontents
    rw [if_neg hlt]
    refine AvlTable.numbers_ext (fun n hn => ?_) fun k => ?_
    · exact AvlTable.exists_key (Finset.insert_subset_insert _ (Finset.erase_subset _ _) hn)
    · rw [← hinv.contents_ne_none, hcontents, Finset.mem_insert, Finset.mem_erase,
        AvlTable.mem_numbers, UInt64.toNat_inj]
      by_cases hk : k = key
      · simp only [hk, Function.update_self, ne_eq, reduceCtorEq, not_false_eq_true, true_or]
      · rw [Function.update_of_ne hk]
        simp only [RecordMap.removeKeys, List.mem_singleton, ne_eq, UInt64.toNat_inj, hk, false_or]
        by_cases hkf : k = f
        · simp only [hkf, if_true, not_true_eq_false, false_and]
        · simp only [hkf, if_false, not_false_eq_true, true_and]
          exact h.contents_ne_none

end Write

/-! ## Runs of writes under a limit -/

/-- A write to a manager that has the limit enabled. -/
structure LimitedWrite where
  RecordSizeForCompression : Int
  GzipCompressionLevel : Int
  DefragAfterRecordDelete : Int
  recordkey : UInt64
  record : List UInt8
  size : record.length ≤ MAX_RECORD_SIZE

/-- What the write reads from `g_cfg`. -/
def LimitedWrite.cfg (a : LimitedWrite) (limit : ℕ) : WriteCfg where
  RecordSizeForCompression := a.RecordSizeForCompression
  GzipCompressionLevel := a.GzipCompressionLevel
  EnableRecordLimit := true
  RecordLimit _ := limit
  DefragAfterRecordDelete := a.DefragAfterRecordDelete

/-- A manager and the keys of all writes so far. -/
structure Kept where
  manager : Blman
  written : Finset ℕ

/-- The keys that are stored. -/
def Kept.stored (s : Kept) : Finset ℕ := s.manager.blockIndex.numbers

/-- Writes to a new manager, one after another. -/
def limitedWrites (sh : Shared) (limit : ℕ) : Machine Kept LimitedWrite where
  init s := create none = some s.manager ∧ s.written = ∅
  step s a := do
    let (_, manager) ← s.manager.writeRecord sh (a.cfg limit) a.recordkey a.record
    return ⟨manager, insert a.recordkey.toNat s.written⟩

/-- If the tree is full and the key is new, the key is older than all, or the first
key of the tree is the oldest. -/
def Kept.VictimIsOldest (limit : ℕ) (s : Kept) (a : LimitedWrite) : Prop :=
  a.recordkey ∈ s.manager.blockIndex ∨ s.manager.blockIndex.count < limit
    ∨ (∀ k ∈ s.manager.blockIndex, a.recordkey < k)
    ∨ ∃ f ∈ s.manager.blockIndex.first, ∀ k ∈ s.manager.blockIndex, f ≤ k

section Runs

variable {sh : Shared} {limit : ℕ} {s t : Kept} {a : LimitedWrite}

theorem step_eq (hs : (limitedWrites sh limit).step s a = some t) : ∃ st,
    s.manager.writeRecord sh (a.cfg limit) a.recordkey a.record = some (st, t.manager)
      ∧ t.written = insert a.recordkey.toNat s.written := by
  obtain ⟨⟨st, m⟩, hw, heq⟩ := Option.bind_eq_some_iff.mp hs
  cases heq
  exact ⟨st, hw, rfl⟩

/-- The comparison of keys, as numbers. -/
theorem forall_numbers {index : AvlTable} {p : ℕ → Prop} :
    (∀ n ∈ index.numbers, p n) ↔ ∀ k ∈ index, p k.toNat := by
  constructor
  · intro h k hk
    exact h _ (AvlTable.mem_numbers.mpr hk)
  · intro h n hn
    obtain ⟨k, rfl, hk⟩ := AvlTable.exists_of_mem_numbers hn
    exact h k hk

/-- One write keeps the largest keys exactly when the key it takes out is the oldest. -/
theorem step_largest_iff (hmin : 1 ≤ limit) (hmax : limit < 2 ^ 31) (hinv : s.manager.Inv)
    (h : Largest limit s.written s.stored) (hs : (limitedWrites sh limit).step s a = some t) :
    Largest limit t.written t.stored ↔ s.VictimIsOldest limit a := by
  obtain ⟨st, hw, hwritten⟩ := step_eq hs
  have hcases := writeRecord_cases hinv hw
  have hle : s.manager.blockIndex.count ≤ limit := by
    rw [← AvlTable.card_numbers]
    exact h.card_le
  have hadd : ∀ hlt : AvlTable.count (s.manager.indexAfterUpdate a.recordkey) < limit,
      t.stored = insert a.recordkey.toNat s.stored := fun hlt =>
    hcases.numbers_added hinv a.size rfl hmax hlt
  rw [hwritten]
  by_cases hkey : a.recordkey ∈ s.manager.blockIndex
  · refine iff_of_true ?_ (Or.inl hkey)
    rw [hadd (by have := AvlTable.count_erase hkey; rw [indexAfterUpdate]; omega)]
    exact h.insert_mem (AvlTable.mem_numbers.mpr hkey)
  have hidx : s.manager.indexAfterUpdate a.recordkey = s.manager.blockIndex :=
    AvlTable.erase_of_notMem hkey
  by_cases hlt : s.manager.blockIndex.count < limit
  · refine iff_of_true ?_ (Or.inr (Or.inl hlt))
    rw [hadd (hidx ▸ hlt)]
    exact h.insert_room (by rw [Kept.stored, AvlTable.card_numbers]; exact hlt)
  have hfull : s.manager.blockIndex.count = limit := by omega
  have hcard : s.stored.card = limit := (AvlTable.card_numbers _).trans hfull
  have hnew : a.recordkey.toNat ∉ s.stored := fun hm => hkey (AvlTable.mem_numbers.mp hm)
  cases hf : s.manager.blockIndex.first with
  | none =>
    have hnil : s.manager.blockIndex.inOrder = [] := List.head?_eq_none_iff.mp hf
    rw [← AvlTable.length_inOrder, hnil, List.length_nil] at hfull
    omega
  | some f =>
    have hstored := hcases.numbers_full hinv a.size rfl rfl hmax hfull hkey hf
    rw [← Kept.stored, ← Kept.stored] at hstored
    have hmem := AvlTable.mem_of_first hf
    have hvictim : s.VictimIsOldest limit a ↔ (∀ k ∈ s.manager.blockIndex, a.recordkey < k)
        ∨ ∀ k ∈ s.manager.blockIndex, f ≤ k := by
      simp only [Kept.VictimIsOldest, hkey, hlt, false_or, hf, Option.mem_some_iff, exists_eq_left']
    rw [hvictim, hstored]
    by_cases hold : a.recordkey < f
    · rw [if_pos hold, h.skip_iff hcard hnew, Kept.stored, forall_numbers]
      simp only [← UInt64.lt_iff_toNat_lt]
      refine ⟨Or.inl, fun hor k hk => hor.elim (fun hall => hall k hk) fun hall => ?_⟩
      exact UInt64.lt_of_lt_of_le hold (hall k hk)
    · have hflt : f.toNat < a.recordkey.toNat := by
        have hne : f.toNat ≠ a.recordkey.toNat := fun heq =>
          hkey (UInt64.toNat_inj.mp heq ▸ hmem)
        rw [UInt64.lt_iff_toNat_lt] at hold
        omega
      rw [if_neg hold, h.replace_iff hcard hnew (AvlTable.mem_numbers.mpr hmem), Kept.stored,
        forall_numbers]
      simp only [hflt, true_and, ← UInt64.le_iff_toNat_le]
      exact ⟨Or.inr, fun hor => hor.elim (fun hall => absurd (hall f hmem) hold) id⟩

/-- Under a limit that is not 0 a write returns unless it needs a block too many. -/
theorem step_isSome_iff (hmin : 1 ≤ limit) (hmax : limit < 2 ^ 31) (hinv : s.manager.Inv) :
    ((limitedWrites sh limit).step s a).isSome = true
      ↔ ¬ s.manager.Overflows sh (a.cfg limit) a.recordkey a.record := by
  have hnone : s.manager.writeRecord sh (a.cfg limit) a.recordkey a.record = none ↔ _ :=
    hinv.writeRecord_none_iff
  have hcfg : (a.cfg limit).RecordLimit = fun _ => (limit : Int) := rfl
  have hstuck : ¬ s.manager.StuckInLimit sh (a.cfg limit) a.recordkey a.record := fun hs => by
    have hzero := ((hinv.stuckInLimit_iff hcfg (by omega) (by omega)).mp hs).zero
    omega
  have hover := hnone.trans (or_iff_right hstuck)
  rw [← hover]
  change (Option.bind _ _).isSome = true ↔ _
  cases s.manager.writeRecord sh (a.cfg limit) a.recordkey a.record with
  | none => exact ⟨by rintro ⟨⟩, fun hne => absurd rfl hne⟩
  | some p => exact ⟨fun _ => by rintro ⟨⟩, fun _ => rfl⟩

end Runs

/-- In a run in which the first key of a full tree is always its oldest, the stored
keys are the newest. The first write that breaks this takes out the wrong key. -/
theorem newest_kept_iff {sh : Shared} {limit : ℕ} (hmin : 1 ≤ limit) (hmax : limit < 2 ^ 31)
    {s : Kept} (h : (limitedWrites sh limit).Reach (fun s a _ => s.VictimIsOldest limit a) s) :
    Largest limit s.written s.stored
      ∧ (∀ a, ((limitedWrites sh limit).step s a).isSome = true
        ↔ ¬ s.manager.Overflows sh (a.cfg limit) a.recordkey a.record)
      ∧ ∀ a t, (limitedWrites sh limit).step s a = some t →
        (Largest limit t.written t.stored ↔ s.VictimIsOldest limit a) := by
  have hkept : s.manager.Inv ∧ Largest limit s.written s.stored := by
    refine h.invariant (fun s => s.manager.Inv ∧ Largest limit s.written s.stored) ?_ ?_
    · rintro s ⟨hm, hwritten⟩
      obtain ⟨m, hm', hinv, hnone⟩ := create_none
      rw [hm] at hm'
      cases hm'
      have hstored : s.stored = ∅ := by
        refine AvlTable.numbers_ext (fun n hn => absurd hn (Finset.notMem_empty n)) fun k => ?_
        rw [← hinv.contents_ne_none, hnone]
        exact ⟨fun hne => absurd rfl hne, fun hm => absurd hm (Finset.notMem_empty _)⟩
      exact ⟨hinv, by rw [hwritten, hstored]; exact Largest.empty limit⟩
    · rintro s a t ⟨hinv, hl⟩ hok hs
      obtain ⟨st, hw, -⟩ := step_eq hs
      exact ⟨(writeRecord_cases hinv hw).inv hinv,
        (step_largest_iff hmin hmax hinv hl hs).mpr hok⟩
  exact ⟨hkept.2, fun a => step_isSome_iff hmin hmax hkept.1,
    fun a t hs => step_largest_iff hmin hmax hkept.1 hkept.2 hs⟩

/-- The write of a small record. -/
def smallWrite (key : UInt64) : LimitedWrite := ⟨256, 5, 5, key, [1, 2, 3], by decide⟩

/-- As long as there are blocks to count a small record is written. -/
theorem exists_step {limit : ℕ} (hmin : 1 ≤ limit) (hmax : limit < 2 ^ 31) (s : Kept)
    (hinv : s.manager.Inv) (hcount : s.manager.blockCount < 65535) (key : UInt64) :
    ∃ t, (limitedWrites Shared.plain limit).step s (smallWrite key) = some t ∧ t.manager.Inv
      ∧ t.manager.blockCount ≤ s.manager.blockCount + 1
      ∧ t.written = insert key.toNat s.written := by
  obtain ⟨t, hs⟩ := Option.isSome_iff_exists.mp ((step_isSome_iff hmin hmax hinv).mpr fun hov =>
    Nat.lt_irrefl 65535 (hov.last ▸ hcount) :
      ((limitedWrites Shared.plain limit).step s (smallWrite key)).isSome = true)
  obtain ⟨st, hw, hwritten⟩ := step_eq hs
  have hcases := writeRecord_cases hinv hw
  exact ⟨t, hs, hcases.inv hinv, hcases.count_le, hwritten⟩

/-- A new key while there is room, as a step. -/
theorem step_stored {limit : ℕ} (hmax : limit < 2 ^ 31) {s t : Kept} {a : LimitedWrite}
    (hinv : s.manager.Inv) (hkey : a.recordkey ∉ s.manager.blockIndex)
    (hlt : s.manager.blockIndex.count < limit)
    (hs : (limitedWrites Shared.plain limit).step s a = some t) :
    t.stored = insert a.recordkey.toNat s.stored := by
  obtain ⟨st, hw, -⟩ := step_eq hs
  refine (writeRecord_cases hinv hw).numbers_added hinv a.size rfl hmax ?_
  rwa [indexAfterUpdate, AvlTable.erase_of_notMem hkey]

/-- A new key while there is none: it takes the place of the first of the tree. -/
theorem step_replaced {limit : ℕ} (hmax : limit < 2 ^ 31) {s t : Kept} {a : LimitedWrite}
    (hinv : s.manager.Inv) (hkey : a.recordkey ∉ s.manager.blockIndex)
    (hfull : s.manager.blockIndex.count = limit) {f : UInt64}
    (hf : s.manager.blockIndex.first = some f) (hold : ¬ a.recordkey < f)
    (hs : (limitedWrites Shared.plain limit).step s a = some t) :
    t.stored = insert a.recordkey.toNat (s.stored.erase f.toNat) := by
  obtain ⟨st, hw, -⟩ := step_eq hs
  have hnumbers := (writeRecord_cases hinv hw).numbers_full hinv a.size rfl rfl hmax hfull hkey hf
  rwa [if_neg hold] at hnumbers

/-- Room for two, and two records, the first of them under key 1. -/
structure Pair (key : UInt64) (s0 s1 s2 : Kept) : Prop where
  init : (limitedWrites Shared.plain 2).init s0
  first : (limitedWrites Shared.plain 2).step s0 (smallWrite 1) = some s1
  second : (limitedWrites Shared.plain 2).step s1 (smallWrite key) = some s2
  empty : s0.manager.blockIndex.count = 0
  single : s1.manager.blockIndex.count = 1
  inv : s2.manager.Inv
  count : s2.manager.blockCount < 65535
  written : s2.written = {key.toNat, 1}
  stored : s2.stored = {key.toNat, 1}

theorem exists_pair (key : UInt64) (hne : key.toNat ≠ 1) : ∃ s0 s1 s2, Pair key s0 s1 s2 := by
  obtain ⟨m, hm, hinv, hnone⟩ := create_none
  have hempty : ∀ k, k ∉ m.blockIndex := fun k => hinv.contents_eq_none.mp (congrFun hnone k)
  have hstored0 : m.blockIndex.numbers = ∅ := by
    refine AvlTable.numbers_ext (fun n hn => absurd hn (Finset.notMem_empty n)) fun k => ?_
    exact iff_of_false (hempty k) (Finset.notMem_empty _)
  have hcount0 : m.blockIndex.count = 0 := by
    rw [← AvlTable.card_numbers, hstored0, Finset.card_empty]
  have hcount := create_count hm
  obtain ⟨s1, hs1, hinv1, hcount1, hw1⟩ := exists_step (by decide : 1 ≤ 2) (by decide)
    ⟨m, ∅⟩ hinv (by change m.blockCount < 65535; omega) 1
  have hstored1 : s1.stored = {1} := by
    rw [step_stored (by decide) hinv (hempty 1) (by change m.blockIndex.count < 2; omega) hs1]
    change insert 1 m.blockIndex.numbers = {1}
    rw [hstored0]
    rfl
  have hsingle : s1.manager.blockIndex.count = 1 := by
    rw [← AvlTable.card_numbers, ← Kept.stored, hstored1, Finset.card_singleton]
  change s1.manager.blockCount ≤ m.blockCount + 1 at hcount1
  obtain ⟨s2, hs2, hinv2, hcount2, hw2⟩ := exists_step (by decide : 1 ≤ 2) (by decide) s1 hinv1
    (by omega) key
  have hnew : key ∉ s1.manager.blockIndex := by
    rw [← AvlTable.mem_numbers, ← Kept.stored, hstored1, Finset.mem_singleton]
    exact hne
  refine ⟨⟨m, ∅⟩, s1, s2, ⟨hm, rfl⟩, hs1, hs2, hcount0, hsingle, hinv2, by omega, ?_, ?_⟩
  · rw [hw2, hw1]
    rfl
  · rw [step_stored (by decide) hinv1 hnew (by omega) hs2, hstored1]
    rfl

namespace Pair

variable {key : UInt64} {s0 s1 s2 : Kept}

theorem mem (h : Pair key s0 s1 s2) {k : UInt64} :
    k ∈ s2.manager.blockIndex ↔ k = key ∨ k = 1 := by
  rw [← AvlTable.mem_numbers, ← Kept.stored, h.stored, Finset.mem_insert, Finset.mem_singleton,
    UInt64.toNat_inj]
  exact or_congr_right (UInt64.toNat_inj (b := 1))

theorem full (h : Pair key s0 s1 s2) (hne : key.toNat ≠ 1) : s2.manager.blockIndex.count = 2 := by
  rw [← AvlTable.card_numbers, ← Kept.stored, h.stored]
  exact Finset.card_pair hne

/-- The two writes are as they should be. -/
theorem reach (h : Pair key s0 s1 s2) :
    (limitedWrites Shared.plain 2).Reach (fun s a _ => s.VictimIsOldest 2 a) s2 := by
  have hfirst : (limitedWrites Shared.plain 2).Reach (fun s a _ => s.VictimIsOldest 2 a) s1 := by
    refine .step _ _ _ (.init s0 h.init) (Or.inr (Or.inl ?_)) h.first
    rw [h.empty]
    decide
  refine .step _ _ _ hfirst (Or.inr (Or.inl ?_)) h.second
  rw [h.single]
  decide

end Pair

/-- Room for two: of the keys 1, 2 and 3 the first is taken out, and the newest stay. -/
theorem newest_kept_iff_third : ∃ s0 s1 s2 s3 : Kept, (limitedWrites Shared.plain 2).init s0
    ∧ (limitedWrites Shared.plain 2).step s0 (smallWrite 1) = some s1
    ∧ (limitedWrites Shared.plain 2).step s1 (smallWrite 2) = some s2
    ∧ (limitedWrites Shared.plain 2).step s2 (smallWrite 3) = some s3
    ∧ s3.stored = {3, 2} ∧ Largest 2 s3.written s3.stored := by
  obtain ⟨s0, s1, s2, h⟩ := exists_pair 2 (by decide)
  have hfirst : s2.manager.blockIndex.first = some 1 := by
    refine AvlTable.first_eq (h.mem.mpr (Or.inr rfl)) fun k hk => ?_
    rcases h.mem.mp hk with rfl | rfl
    · decide
    · decide
  obtain ⟨-, hsome, hiff⟩ := newest_kept_iff (by decide) (by decide) h.reach
  obtain ⟨s3, hs3⟩ := Option.isSome_iff_exists.mp ((hsome (smallWrite 3)).mpr fun hov =>
    Nat.lt_irrefl 65535 (hov.last ▸ h.count))
  have hstored : s3.stored = {3, 2} := by
    rw [step_replaced (by decide) h.inv (fun hk => absurd (h.mem.mp hk) (by decide))
      (h.full (by decide)) hfirst (by decide) hs3, h.stored]
    decide
  refine ⟨s0, s1, s2, s3, h.init, h.first, h.second, hs3, hstored, (hiff _ s3 hs3).mpr ?_⟩
  refine Or.inr (Or.inr (Or.inr ⟨1, hfirst, fun k hk => ?_⟩))
  rcases h.mem.mp hk with rfl | rfl
  · decide
  · decide

/-- Room for two: of the keys 1, 256 and 257 the second is taken out, since its lowest
byte is 0. -/
theorem newest_not_kept : ∃ s0 s1 s2 s3 : Kept, (limitedWrites Shared.plain 2).init s0
    ∧ (limitedWrites Shared.plain 2).step s0 (smallWrite 1) = some s1
    ∧ (limitedWrites Shared.plain 2).step s1 (smallWrite 256) = some s2
    ∧ (limitedWrites Shared.plain 2).step s2 (smallWrite 257) = some s3
    ∧ s3.stored = {257, 1} ∧ ¬ Largest 2 s3.written s3.stored := by
  obtain ⟨s0, s1, s2, h⟩ := exists_pair 256 (by decide)
  obtain ⟨s3, hs3, -, -, hw3⟩ := exists_step (by decide : 1 ≤ 2) (by decide) s2 h.inv h.count 257
  have hfirst : s2.manager.blockIndex.first = some 256 := by
    refine AvlTable.first_eq (h.mem.mpr (Or.inl rfl)) fun k hk => ?_
    rcases h.mem.mp hk with rfl | rfl
    · decide
    · decide
  have hstored : s3.stored = {257, 1} := by
    rw [step_replaced (by decide) h.inv (fun hk => absurd (h.mem.mp hk) (by decide))
      (h.full (by decide)) hfirst (by decide) hs3, h.stored]
    decide
  refine ⟨s0, s1, s2, s3, h.init, h.first, h.second, hs3, hstored, fun hl => ?_⟩
  rw [hstored, hw3, h.written] at hl
  have hmem256 : 256 ∈ insert (UInt64.toNat 257) ({UInt64.toNat 256, 1} : Finset ℕ) := by decide
  exact absurd (hl.above 1 (by decide) 256 hmem256 (by decide)) (by decide)

end Blman

end TransDB
