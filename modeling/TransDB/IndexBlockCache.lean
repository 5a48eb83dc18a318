/-
The size of the cache of index blocks.

`GetCachedDiskBlock` looks at the size of the cache before it loads a block, and
evicts a block when the cache is over `IndexBlockCacheSize`; so a load leaves at
most one block more than the size. `WriteRecordIndexToDisk` puts a block it appends
to the file into the cache without looking. `AppendFits` says of a call that it
does not append while the cache is over the size, and this is when the size
stays within the bound.
-/
import TransDB.IndexBlockRuns

set_option autoImplicit false

namespace TransDB

namespace IndexBlock

/-- What the eviction test of `GetCachedDiskBlock` compares. -/
def cacheBytes (self : IndexBlock) : ℕ := self.m_rDiskBlockCache.entries.length * INDEX_BLOCK_SIZE

/-- The bound that test enforces for the blocks it loads. -/
def Sized (cacheSize : ℕ) (self : IndexBlock) : Prop :=
  self.cacheBytes ≤ cacheSize + INDEX_BLOCK_SIZE

/-- `WriteRecordIndexToDisk` does not append a block while the cache is over its
size. A block that is cached under the number of the new one stays, and the cache
does not grow. -/
def AppendFits (cacheSize : ℕ) (r : RecordIndex) : ℕ → IndexBlock → IndexFile → Prop
  | 0, _, _ => True
  | fuel + 1, self, hFile =>
    r.m_IB_recordOffset = -1 →
    match self.firstFree with
    | none => self.m_blockCount ∈ self.m_rDiskBlockCache ∨ self.cacheBytes ≤ cacheSize
    | some freeBlock =>
      -- a free block without an empty record is skipped
      ∀ pDiskBlock self', self.GetCachedDiskBlock cacheSize hFile (diskPosition freeBlock) freeBlock
          = some (pDiskBlock, self') → pDiskBlock.GetEmptyDREC = none →
        AppendFits cacheSize r fuel
          { self' with m_freeBlocks := self'.m_freeBlocks.erase freeBlock } hFile

/-- The LRU lists the cached blocks, and the numbers of blocks are `uint32`. -/
structure CacheInv (ib : IndexBlock) : Prop where
  lru : Tracks ib.m_pLRUCache ib.m_rDiskBlockCache
  cached : ∀ n ∈ ib.m_rDiskBlockCache, n < 2 ^ 32
  free : ∀ n ∈ ib.m_freeBlocks, n < 2 ^ 32
  count : ib.m_blockCount < 2 ^ 32

theorem firstFree_mem {ib : IndexBlock} {n : ℕ} (hf : ib.firstFree = some n) :
    n ∈ ib.m_freeBlocks := by
  rw [firstFree] at hf
  by_cases hne : ib.m_freeBlocks.Nonempty
  · rw [dif_pos hne, Option.some.injEq] at hf
    rw [← hf]
    exact Finset.min'_mem _ _
  · rw [dif_neg hne] at hf
    cases hf

namespace CacheInv

variable {ib ib' : IndexBlock} {cacheSize n : ℕ} {file file' : IndexFile} {b : IndexDiskBlock}

/-- One entry more. -/
theorem insert (h : ib.CacheInv) (hn : n < 2 ^ 32) (b : IndexDiskBlock) {lru : LRUCache}
    (hlru : Tracks lru (ib.m_rDiskBlockCache.insert n b)) :
    CacheInv { ib with m_rDiskBlockCache := ib.m_rDiskBlockCache.insert n b, m_pLRUCache := lru } := by
  refine ⟨hlru, fun k hk => ?_, h.free, h.count⟩
  rcases (AList.mem_insert _).mp hk with rfl | hk
  · exact hn
  · exact h.cached k hk

/-- A store into a cached block, with other free blocks. -/
theorem store (h : ib.CacheInv) (hn : n ∈ ib.m_rDiskBlockCache) (b : IndexDiskBlock)
    {free : Finset ℕ} (hfree : ∀ k ∈ free, k < 2 ^ 32) :
    CacheInv { ib.store n b with m_freeBlocks := free } ∧ (ib.store n b).cacheBytes = ib.cacheBytes := by
  have hlru : Tracks ib.m_pLRUCache (ib.m_rDiskBlockCache.insert n b) := Tracks.store h.lru hn b
  have hins := h.insert (h.cached n hn) b hlru
  refine ⟨⟨hins.lru, hins.cached, hfree, h.count⟩, ?_⟩
  rw [cacheBytes, IndexBlock.store, KeyMap.length_insert_of_mem hn, cacheBytes]

/-- What the eviction test leaves has room for a block. -/
theorem make_room (h : ib.CacheInv)
    (hev : (if cacheSize < ib.cacheBytes then ib.evict else some ib) = some ib') :
    ib'.CacheInv ∧ (∀ k ∈ ib'.m_rDiskBlockCache, k ∈ ib.m_rDiskBlockCache)
      ∧ (ib.Sized cacheSize → ib'.cacheBytes ≤ cacheSize) := by
  by_cases hfull : cacheSize < ib.cacheBytes
  · rw [if_pos hfull] at hev
    rcases evict_spec h.lru h.cached with ⟨-, hnone⟩ | ⟨k, lru, hk, hlru, hev'⟩
    · -- a cache that is over any size is not empty
      exfalso
      have hnil : ib.m_rDiskBlockCache.entries = [] := by
        refine List.eq_nil_iff_forall_not_mem.mpr fun e he => hnone e.1 ?_
        exact AList.lookup_isSome.mp (by rw [KeyMap.mem_entries.mp he]; rfl)
      rw [cacheBytes, hnil, List.length_nil, Nat.zero_mul] at hfull
      exact Nat.not_lt_zero _ hfull
    · rw [hev', Option.some.injEq] at hev
      subst hev
      have hlen := KeyMap.length_erase hk
      refine ⟨⟨hlru, fun n hn => h.cached n (AList.mem_erase.mp hn).2, h.free, h.count⟩,
        fun n hn => (AList.mem_erase.mp hn).2, fun hsized => ?_⟩
      rw [Sized, cacheBytes, ← hlen, Nat.succ_mul] at hsized
      exact Nat.le_of_add_le_add_right hsized
  · rw [if_neg hfull, Option.some.injEq] at hev
    subst hev
    exact ⟨h, fun k hk => hk, fun _ => Nat.le_of_not_lt hfull⟩

/-- `GetCachedDiskBlock` keeps the bound. -/
theorem GetCachedDiskBlock (h : ib.CacheInv) (hn : n < 2 ^ 32) {blockDiskPosition : ℕ}
    (hget : ib.GetCachedDiskBlock cacheSize file blockDiskPosition n = some (b, ib')) :
    ib'.CacheInv ∧ n ∈ ib'.m_rDiskBlockCache ∧ (ib.Sized cacheSize → ib'.Sized cacheSize) := by
  rw [IndexBlock.GetCachedDiskBlock] at hget
  rcases hc : ib.m_rDiskBlockCache.lookup n with _ | c
  · -- the rest of the call after the eviction test
    obtain ⟨s, hs, hrest⟩ : ∃ s, (if cacheSize < ib.cacheBytes then ib.evict else some ib) = some s
        ∧ ((IndexFile.readBlock file blockDiskPosition).bind fun b' =>
            (s.m_pLRUCache.put (UInt64.ofNat n)).bind fun lru => some (b', { s with
              m_rDiskBlockCache := s.m_rDiskBlockCache.insert n b', m_pLRUCache := lru }))
          = some (b, ib') := by
      by_cases hfull : cacheSize < ib.cacheBytes
      · have hfull' : cacheSize < ib.m_rDiskBlockCache.entries.length * INDEX_BLOCK_SIZE := hfull
        simp only [hc, if_pos hfull', Option.bind_eq_bind] at hget
        obtain ⟨s, hs, hrest⟩ := Option.bind_eq_some_iff.mp hget
        exact ⟨s, (if_pos hfull).trans hs, hrest⟩
      · have hfull' : ¬ cacheSize < ib.m_rDiskBlockCache.entries.length * INDEX_BLOCK_SIZE := hfull
        simp only [hc, if_neg hfull', Option.bind_eq_bind, Option.bind_some] at hget
        exact ⟨ib, if_neg hfull, hget⟩
    obtain ⟨b', -, hrest⟩ := Option.bind_eq_some_iff.mp hrest
    obtain ⟨lru, hput, hret⟩ := Option.bind_eq_some_iff.mp hrest
    obtain ⟨hinv, hsub, hroom⟩ := h.make_room hs
    have hnc : n ∉ s.m_rDiskBlockCache := fun hmem => AList.lookup_eq_none.mp hc (hsub n hmem)
    obtain ⟨lru', hput', hlru⟩ := Tracks.put hinv.lru n b'
    rw [hput, Option.some.injEq] at hput'
    rw [← hput'] at hlru
    cases hret
    refine ⟨hinv.insert hn b hlru, (AList.mem_insert _).mpr (Or.inl rfl), fun hsized => ?_⟩
    have hle := hroom hsized
    rw [cacheBytes] at hle
    rw [Sized, cacheBytes, KeyMap.length_insert_of_not_mem hnc, Nat.succ_mul]
    exact Nat.add_le_add_right hle _
  · have hmem : n ∈ ib.m_rDiskBlockCache := AList.lookup_isSome.mp (by rw [hc]; rfl)
    simp only [hc, Option.bind_eq_bind, Option.bind_eq_some_iff] at hget
    obtain ⟨lru, hput, hret⟩ := hget
    obtain ⟨lru', hput', hlru⟩ := Tracks.put_again h.lru hmem
    rw [hput, Option.some.injEq] at hput'
    rw [← hput'] at hlru
    cases hret
    exact ⟨⟨hlru, h.cached, h.free, h.count⟩, hmem, id⟩

/-- The block that is appended goes into the cache, whatever its size. -/
theorem appendBlock (h : ib.CacheInv) {d : DREC}
    (happ : ib.appendBlock file d = some (ib', file')) (hsized : ib.Sized cacheSize) :
    ib'.CacheInv ∧ (ib'.Sized cacheSize ↔
      ib.m_blockCount ∈ ib.m_rDiskBlockCache ∨ ib.cacheBytes ≤ cacheSize) := by
  simp only [IndexBlock.appendBlock, Option.bind_eq_bind, Option.bind_eq_some_iff] at happ
  obtain ⟨lru, hput, hret⟩ := happ
  cases hret
  have hfree : ∀ k ∈ Insert.insert ib.m_blockCount ib.m_freeBlocks, k < 2 ^ 32 := by
    intro k hk
    rcases Finset.mem_insert.mp hk with rfl | hk
    · exact h.count
    · exact h.free k hk
  have hcount : (ib.m_blockCount + 1) % 2 ^ 32 < 2 ^ 32 := Nat.mod_lt _ (by decide)
  by_cases hmem : ib.m_blockCount ∈ ib.m_rDiskBlockCache
  · obtain ⟨lru', hput', hlru⟩ := Tracks.put_again h.lru hmem
    rw [hput, Option.some.injEq] at hput'
    rw [← hput'] at hlru
    simp only [if_pos hmem]
    exact ⟨⟨hlru, h.cached, hfree, hcount⟩, iff_of_true hsized (Or.inl hmem)⟩
  · obtain ⟨b', hb'⟩ : ∃ b' : IndexDiskBlock, b' = { IndexDiskBlock.zero.setSlot 0 d with
        m_amountOfFreeSpace := INDEX_BLOCK_SIZE - sizeofDREC - sizeofICIDF } := ⟨_, rfl⟩
    obtain ⟨lru', hput', hlru⟩ := Tracks.put h.lru ib.m_blockCount b'
    rw [hput, Option.some.injEq] at hput'
    rw [← hput'] at hlru
    have hins := h.insert h.count b' hlru
    simp only [if_neg hmem, ← hb']
    refine ⟨⟨hins.lru, hins.cached, hfree, hcount⟩, ?_⟩
    rw [Sized, cacheBytes, KeyMap.length_insert_of_not_mem hmem, Nat.succ_mul,
      Nat.add_le_add_iff_right, or_iff_right hmem, cacheBytes]

/-- The calls of `GetCachedDiskBlock` aside, a write stays within the bound when
what it appends fits. -/
theorem write (h : ib.CacheInv) (hsized : ib.Sized cacheSize) {x : UInt64} {r r' : RecordIndex}
    (hnum : r.m_IB_blockNumber < 2 ^ 32) {fuel : ℕ}
    (hw : WriteRecordIndexToDisk cacheSize x r fuel ib file = some (ib', file', r')) :
    ib'.CacheInv ∧ (ib'.Sized cacheSize ↔ AppendFits cacheSize r fuel ib file) := by
  induction fuel generalizing ib with
  | zero => cases hw
  | succ fuel ih =>
    rw [WriteRecordIndexToDisk] at hw
    rw [AppendFits]
    by_cases hoff : r.m_IB_recordOffset = -1
    · rw [if_neg (not_not_intro hoff)] at hw
      simp only [hoff, forall_const]
      rcases hf : ib.firstFree with _ | freeBlock
      · simp only [hf, Option.bind_eq_bind, Option.bind_eq_some_iff] at hw ⊢
        obtain ⟨⟨ib1, file1⟩, happ, hret⟩ := hw
        cases hret
        exact h.appendBlock happ hsized
      · simp only [hf, Option.bind_eq_bind, Option.bind_eq_some_iff] at hw ⊢
        obtain ⟨⟨b, ib1⟩, hget, hw⟩ := hw
        have hlt := h.free freeBlock (firstFree_mem hf)
        obtain ⟨h1, hmem, hkeep⟩ := h.GetCachedDiskBlock hlt hget
        have herase : ∀ k ∈ ib1.m_freeBlocks.erase freeBlock, k < 2 ^ 32 := fun k hk =>
          h1.free k (Finset.mem_of_mem_erase hk)
        rcases hempty : b.GetEmptyDREC with _ | j
        · -- the block is skipped
          simp only [hempty] at hw
          have hskip : CacheInv { ib1 with m_freeBlocks := ib1.m_freeBlocks.erase freeBlock } :=
            ⟨h1.lru, h1.cached, herase, h1.count⟩
          obtain ⟨hinv, hiff⟩ := ih hskip (hkeep hsized) hw
          refine ⟨hinv, hiff.trans ?_⟩
          simp only [hget, Option.some.injEq, Prod.mk.injEq]
          constructor
          · intro hfits b2 ib2 heq hnone
            rw [← heq.2]
            exact hfits
          · intro hfits
            exact hfits b ib1 ⟨rfl, rfl⟩ hempty
        · simp only [hempty, Option.bind_eq_some_iff] at hw
          obtain ⟨file1, -, hret⟩ := hw
          cases hret
          have hfree : ∀ k ∈ (if u16 (b.m_amountOfFreeSpace - sizeofDREC) < sizeofDREC
              then ib1.m_freeBlocks.erase freeBlock else ib1.m_freeBlocks), k < 2 ^ 32 := by
            intro k hk
            split at hk
            · exact herase k hk
            · exact h1.free k hk
          obtain ⟨hinv, hbytes⟩ := h1.store hmem _ hfree
          refine ⟨hinv, iff_of_true ?_ ?_⟩
          · exact hbytes.le.trans (hkeep hsized)
          · intro b2 ib2 hget2 hnone
            rw [hget] at hget2
            cases hget2
            rw [hempty] at hnone
            cases hnone
    · rw [if_pos hoff] at hw
      simp only [rewriteRecord, Option.bind_eq_bind, Option.bind_eq_some_iff] at hw
      obtain ⟨⟨ib1, file1⟩, ⟨⟨b, ib2⟩, hget, j, -, file2, -, hret⟩, hret'⟩ := hw
      cases hret
      cases hret'
      obtain ⟨h2, hmem, hkeep⟩ := h.GetCachedDiskBlock hnum hget
      obtain ⟨hinv, hbytes⟩ := h2.store hmem (b.setSlot j (r.toDREC x)) h2.free
      refine ⟨hinv, iff_of_true ?_ (fun heq => absurd heq hoff)⟩
      exact hbytes.le.trans (hkeep hsized)

/-- An erasure stays within the bound. -/
theorem erase (h : ib.CacheInv) (hsized : ib.Sized cacheSize) (hn : n < 2 ^ 32)
    {recordOffset : Int} (he : ib.EraseRecord cacheSize file n recordOffset = some (ib', file')) :
    ib'.CacheInv ∧ ib'.Sized cacheSize := by
  rw [EraseRecord] at he
  by_cases hoff : recordOffset = -1
  · rw [if_pos hoff] at he
    cases he
    exact ⟨h, hsized⟩
  · rw [if_neg hoff] at he
    simp only [Option.bind_eq_bind, Option.bind_eq_some_iff] at he
    obtain ⟨⟨b, ib1⟩, hget, j, -, file1, -, hret⟩ := he
    cases hret
    obtain ⟨h1, hmem, hkeep⟩ := h.GetCachedDiskBlock hn hget
    have hfree : ∀ k ∈ Insert.insert n ib1.m_freeBlocks, k < 2 ^ 32 := by
      intro k hk
      rcases Finset.mem_insert.mp hk with rfl | hk
      · exact hn
      · exact h1.free k hk
    obtain ⟨hinv, hbytes⟩ := h1.store hmem _ hfree
    exact ⟨hinv, hbytes.le.trans (hkeep hsized)⟩

end CacheInv

/-! ## Runs -/

namespace Client

/-- The calls of the two functions, with their `uint32` block number and the one
size of the cache. -/
def Calls (cacheSize : ℕ) : Call → Prop
  | .write size _ r => size = cacheSize ∧ r.m_IB_blockNumber < 2 ^ 32
  | .erase size r _ => size = cacheSize ∧ r.m_IB_blockNumber < 2 ^ 32
  | .restart _ => False

instance (cacheSize : ℕ) : DecidablePred (Calls cacheSize)
  | .write _ _ _ => inferInstanceAs (Decidable (_ ∧ _))
  | .erase _ _ _ => inferInstanceAs (Decidable (_ ∧ _))
  | .restart _ => inferInstanceAs (Decidable False)

/-- What a call appends fits into the cache. -/
def Fits (s : Client) : Call → Prop
  | .write cacheSize _ r =>
    AppendFits cacheSize r (s.index.m_freeBlocks.card + 1) s.index s.hFile
  | .erase _ _ _ => True
  | .restart _ => True

variable {s t : Client} {cacheSize : ℕ}

theorem cacheInv_empty : empty.index.CacheInv := by
  refine ⟨⟨[], LRUCache.IsList.empty, fun x => ?_⟩, ?_, ?_, by decide⟩
  · constructor
    · intro hx
      cases hx
    · rintro ⟨n, hn, -⟩
      exact absurd hn (AList.notMem_empty n)
  · intro n hn
    exact absurd hn (AList.notMem_empty n)
  · intro n hn
    exact absurd hn (Finset.notMem_empty n)

/-- One call from a cache within the bound. -/
theorem step_sized_iff (h : s.index.CacheInv) (hsized : s.index.Sized cacheSize) {c : Call}
    (hc : Calls cacheSize c) (hst : s.step c = some t) :
    t.index.CacheInv ∧ (t.index.Sized cacheSize ↔ s.Fits c) := by
  cases c with
  | write size x r =>
    obtain ⟨rfl, hnum⟩ := hc
    simp only [step, writeRecordIndex, Option.bind_eq_bind, Option.bind_eq_some_iff] at hst
    obtain ⟨⟨ib', file', r'⟩, hw, hret⟩ := hst
    cases hret
    exact h.write hsized hnum hw
  | erase size r x =>
    obtain ⟨rfl, hnum⟩ := hc
    simp only [step, Option.bind_eq_bind, Option.bind_eq_some_iff] at hst
    obtain ⟨⟨ib', file'⟩, he, hret⟩ := hst
    cases hret
    obtain ⟨hinv, hsized'⟩ := h.erase hsized hnum he
    exact ⟨hinv, iff_of_true hsized' trivial⟩
  | restart order => exact hc.elim

/-- Every state of a run of calls that fit is within the bound. -/
theorem reach_sized (h : machine.Reach (fun s c _ => Calls cacheSize c ∧ s.Fits c) s) :
    s.index.CacheInv ∧ s.index.Sized cacheSize := by
  refine h.invariant (fun s => s.index.CacheInv ∧ s.index.Sized cacheSize) (fun s hs => ?_)
    (fun s c t hs hok hst => ?_)
  · rw [hs]
    exact ⟨cacheInv_empty, Nat.zero_le _⟩
  · obtain ⟨hinv, hiff⟩ := step_sized_iff hs.1 hs.2 hok.1 hst
    exact ⟨hinv, hiff.mpr hok.2⟩

/-- **The size of the index block cache**: it stays within the bound in every run
whose calls fit, and the first call that does not fit takes it over the bound. -/
theorem index_cache_sized (h : machine.Reach (fun s c _ => Calls cacheSize c ∧ s.Fits c) s) :
    s.index.cacheBytes ≤ cacheSize + INDEX_BLOCK_SIZE
      ∧ ∀ c t, Calls cacheSize c → s.step c = some t →
        (t.index.cacheBytes ≤ cacheSize + INDEX_BLOCK_SIZE ↔ s.Fits c) := by
  obtain ⟨hinv, hsized⟩ := reach_sized h
  exact ⟨hsized, fun c t hc hst => (step_sized_iff hinv hsized hc hst).2⟩

/-- The write of a new key, with a cache of no bytes. -/
def newKey (x : ℕ) : Call :=
  .write 0 (UInt64.ofNat x) ⟨0, none, 1, -1, 0, 5, true, true, true⟩

/-- A call that finds a free block, or appends one to a cache that is not over its size. -/
def fitsTest (s : Client) : Call → Bool
  | .write cacheSize _ _ =>
    match s.index.firstFree with
    | none => decide (s.index.cacheBytes ≤ cacheSize)
    | some freeBlock =>
      (s.index.GetCachedDiskBlock cacheSize s.hFile (diskPosition freeBlock) freeBlock).all
        fun p => p.1.GetEmptyDREC.isSome
  | _ => false

theorem fits_of_test {c : Call} (h : fitsTest s c = true) : s.Fits c := by
  cases c with
  | write cacheSize x r =>
    intro _
    rw [fitsTest] at h
    split at h
    case h_1 => exact Or.inr (of_decide_eq_true h)
    case h_2 freeBlock _ =>
      intro pDiskBlock self' hcached hnone
      have hsome := (Option.all_eq_true _ _).mp h _ hcached
      rw [hnone] at hsome
      cases hsome
  | _ => cases h

/-- Three keys of an empty index: the first appends a block, the others find it. -/
theorem index_cache_sized_three : ∃ s : Client, s.index.cacheBytes = INDEX_BLOCK_SIZE
    ∧ s.index.cacheBytes ≤ 0 + INDEX_BLOCK_SIZE := by
  have hrun : (machine.run (fun s c => decide (Calls 0 c) && fitsTest s c) empty
      [newKey 0, newKey 1, newKey 2]).any
      (fun s => decide (s.index.cacheBytes = INDEX_BLOCK_SIZE)) = true := by decide +kernel
  obtain ⟨s, hs, hbytes⟩ := (Option.any_eq_true _ _).mp hrun
  refine ⟨s, of_decide_eq_true hbytes,
    (index_cache_sized (Machine.Reach.steps (.init empty rfl) (Machine.Steps.of_run ?_ hs))).1⟩
  intro s c _ htest _
  obtain ⟨hcalls, hfits⟩ := Bool.and_eq_true_iff.mp htest
  exact ⟨of_decide_eq_true hcalls, fits_of_test hfits⟩

set_option maxRecDepth 100000 in
/-- 186 keys fill the first block, and the block appended for the next key joins it
in the cache. -/
theorem index_cache_grows : ∃ s, machine.Reach (fun _ c _ => Calls 0 c) s
    ∧ ¬ s.index.cacheBytes ≤ 0 + INDEX_BLOCK_SIZE := by
  have hrun : (machine.run (fun _ c => decide (Calls 0 c)) empty
      ((List.range 187).map newKey)).any
      (fun s => decide (0 + INDEX_BLOCK_SIZE < s.index.cacheBytes)) = true := by decide +kernel
  obtain ⟨s, hs, hover⟩ := (Option.any_eq_true _ _).mp hrun
  refine ⟨s, Machine.Reach.steps (.init empty rfl) (Machine.Steps.of_run ?_ hs), ?_⟩
  · intro _ c _ htest _
    exact of_decide_eq_true htest
  · exact Nat.not_le_of_lt (of_decide_eq_true hover)

end Client

end IndexBlock

end TransDB
