/-
When `m_memoryUsed` is exact.

A write can end in a defragmentation, and then the difference that the write has made is not
added, and that of the defragmentation has the wrong sign unless the usage shrinks. Whether
the sum comes out right all the same can be told before the step: from the keys that the
record limit takes out and the key that is new, from the block that is appended if no other
has room, and from the blocks that a first fit of the records takes. `Foretold` says it of
these numbers.
-/
import TransDB.BlockManagerLayout
import TransDB.SystemLimit
import TransDB.SystemReplies

set_option autoImplicit false

namespace TransDB

open ByteList DiskWriter Storage

namespace Blman

variable (sh : Shared)

/-! ## The usage in numbers -/

/-- The memory of keys and blocks that are added, or taken away where negative. -/
def memoryOf (keys blocks : Int) : Int :=
  keys * (sh.sizeofAvlNode + sizeofBlidxnode : ℕ) + blocks * BLOCK_SIZE

variable {sh} {m m' : Blman}

theorem memoryUsage_add {keys blocks : Int}
    (hkeys : (m'.blockIndex.count : Int) = m.blockIndex.count + keys)
    (hblocks : (m'.blockCount : Int) = m.blockCount + blocks) :
    (m'.memoryUsage sh : Int) = m.memoryUsage sh + memoryOf sh keys blocks := by
  rw [memoryUsage, memoryUsage, memoryOf]
  push_cast
  rw [hkeys, hblocks]
  ring

/-- A defragmentation comes out right. It begins with the records `rows` of the blocks, after
a write that has changed the usage by `written`. What it changes itself is the memory of the
records that are refused, which it loses, and of the blocks that a first fit takes more, or
less. -/
structure CountsPacking (sh : Shared) (cfgs : ℕ → WriteCfg) (rows : List (List Record))
    (written : Int) : Prop where
  limit : ∀ i, LimitKept (cfgs i) rows.flatten.length
  sizes : ∀ r ∈ rows.flatten, (expand sh r.data).length < 65536
  counted :
    if memoryOf sh ((repackNeeds sh cfgs rows).length - rows.flatten.length)
        (firstFit sh cfgs rows - rows.length) < 0 then written = 0
    else written + 2 * memoryOf sh ((repackNeeds sh cfgs rows).length - rows.flatten.length)
        (firstFit sh cfgs rows - rows.length) = 0

theorem Inv.count_eq (h : m.Inv) : m.blockIndex.count = m.layout.flatten.length := by
  rw [flatten_layout, h.length_allRecords]

/-- What a defragmentation changes. -/
theorem Inv.defragment_usage (hz : GzipOk sh) (h : m.Inv) {cfgs : ℕ → WriteCfg} {written : Int}
    (hc : CountsPacking sh cfgs m.layout written) (hne : m.blockIndex.count ≠ 0)
    (hd : m.defragmentData sh cfgs = some m') :
    (m'.memoryUsage sh : Int) = m.memoryUsage sh
      + memoryOf sh ((repackNeeds sh cfgs m.layout).length - m.layout.flatten.length)
        (firstFit sh cfgs m.layout - m.layout.length) := by
  have hsize : ∀ e ∈ m.expanded sh, e.data.length < 65536 := by
    intro e he
    obtain ⟨r, hr, rfl⟩ := List.mem_map.mp he
    exact hc.sizes r hr
  have hlim : ∀ i, LimitKept (cfgs i) m.blockIndex.count := by
    rw [h.count_eq]
    exact hc.limit
  obtain ⟨hkeys, hblocks⟩ := defragmentData_counts hz h hlim hne hsize hd
  refine memoryUsage_add ?_ ?_
  · rw [hkeys, h.count_eq]
    omega
  · rw [hblocks, length_layout]
    omega

/-- The numbers say what `Balanced` says of the usages, no more and no less. -/
theorem balanced_iff {before middle after : ℕ} {written packed : Int}
    (hmiddle : (middle : Int) = before + written) (hafter : (after : Int) = middle + packed) :
    Balanced before middle after
      ↔ if packed < 0 then written = 0 else written + 2 * packed = 0 := by
  rw [Balanced]
  by_cases hlt : after < middle
  · rw [if_pos hlt, if_pos (by omega)]
    omega
  · rw [if_neg hlt, if_neg (by omega)]
    omega

section Write

variable (sh) (cfg : WriteCfg) (m) (key : UInt64) (record : List UInt8)

/-- What a write changes that moves its record: the key if it is new, the keys that the limit
takes out, and a block if one is appended. -/
def writtenMemory : Int :=
  memoryOf sh ((if key ∈ m.blockIndex then 0 else 1)
      - (evictedBy cfg key (m.indexAfterUpdate key)).length)
    (if m.Appends sh cfg key record then 1 else 0)

variable {sh cfg m key record}

/-- The usage after such a write. -/
theorem Inv.write_usage (h : m.Inv) {st : WriteStatus}
    (hw : m.writeRecord sh cfg key record = some (st, m')) (hst : st.needDefrag = true) :
    (m'.memoryUsage sh : Int) = m.memoryUsage sh + m.writtenMemory sh cfg key record := by
  obtain ⟨-, -, hlayout, hcount⟩ := writeRecord_layout h hw hst
  have hindex := count_indexAfterUpdate m key
  have hblocks : m'.blockCount = m.blockCount + if m.Appends sh cfg key record then 1 else 0 := by
    rw [← length_layout, hlayout, length_layoutAfter]
  refine memoryUsage_add ?_ ?_
  · by_cases hkey : key ∈ m.blockIndex
    · rw [if_pos hkey] at hindex ⊢
      omega
    · rw [if_neg hkey] at hindex ⊢
      omega
  · rw [hblocks]
    split
    all_goals rfl

end Write

end Blman

/-! ## The condition of a step -/

namespace Sys

variable (sh : Shared)

/-- The block manager that a defragmentation may begin with is well formed: a write that
reaches the record limit, and a `DefragmentData` of records. -/
def Sound (s : Sys) : Action → Prop
  | .writeData _ cfg _ x y _ => ∀ m ∈ s.store.managerOf sh x,
    Blman.limitReached cfg (m.indexAfterUpdate y) = true → m.Inv
  | .defragmentData _ _ x => ∀ m ∈ s.store.managerOf sh x, m.blockIndex.count ≠ 0 → m.Inv
  | _ => True

/-- The defragmentation that the step ends in, if there is one, comes out right. -/
def Foretold (s : Sys) : Action → Prop
  | .writeData _ cfg cfgs x y pRecord => ∀ m ∈ s.store.managerOf sh x,
    m.Compacts sh cfg y pRecord →
      Blman.CountsPacking sh cfgs (m.layoutAfter sh cfg y pRecord)
        (m.writtenMemory sh cfg y pRecord)
  | .defragmentData _ cfgs x => ∀ m ∈ s.store.managerOf sh x, m.blockIndex.count ≠ 0 →
    Blman.CountsPacking sh cfgs m.layout 0
  | _ => True

/-- The memory is counted right, as far as the state before the step can tell. -/
structure Counted (s : Sys) (a : Action) (_ : Sys) : Prop where
  sound : s.Sound sh a
  foretold : s.Foretold sh a

variable {sh} {s t : Sys} {a : Action}

/-- What is foretold comes true. -/
theorem Counted.defragOk (hz : GzipOk sh) (h : Counted sh s a t) : DefragOk sh s a t := by
  intro d hd m hm m1 hm1 m2 hm2
  cases a with
  | writeData w cfg cfgs x y pRecord =>
    cases hd
    obtain ⟨⟨status, m'⟩, hw, hstart⟩ := Option.bind_eq_some_iff.mp hm1
    dsimp only at hstart
    split at hstart
    case isFalse => cases hstart
    case isTrue hst =>
      cases hstart
      have hinv := h.sound m hm (Blman.writeRecord_limited hw hst)
      obtain ⟨hcompacts, hinv1, hlayout, -⟩ := Blman.writeRecord_layout hinv hw hst
      have hc := h.foretold m hm hcompacts
      rw [← hlayout] at hc
      have hne : m1.blockIndex.count ≠ 0 := by
        obtain ⟨-, -, -, hcount⟩ := Blman.writeRecord_layout hinv hw hst
        have hindex := AvlTable.length_inOrder (m.indexAfterUpdate y)
        have hle : (Blman.evictedBy cfg y (m.indexAfterUpdate y)).length
            ≤ (m.indexAfterUpdate y).count := by
          rw [← hindex]
          exact (Blman.evictedBy_prefix cfg y _).length_le
        omega
      exact (Blman.balanced_iff (hinv.write_usage hw hst)
        (hinv1.defragment_usage hz hc hne hm2)).mpr hc.counted
  | defragmentData w cfgs x =>
    cases hd
    cases hm1
    have hsame : (m.memoryUsage sh : Int) = m.memoryUsage sh + 0 := (Int.add_zero _).symm
    by_cases hne : m.blockIndex.count = 0
    · rw [Blman.defragmentData, if_pos hne] at hm2
      cases hm2
      exact (Blman.balanced_iff hsame hsame).mpr (by decide)
    · have hc := h.foretold m hm hne
      exact (Blman.balanced_iff hsame
        ((h.sound m hm hne).defragment_usage hz hc hne hm2)).mpr hc.counted
  | _ => cases hd

/-- While the index file is below `2 ^ 20` blocks the managers are well formed, and the numbers
are all there is to ask for. -/
theorem reach_counted (h : (server sh).Reach (fun s a t => Small s a t ∧ s.Foretold sh a) s) :
    (server sh).Reach (Counted sh) s := by
  induction h with
  | init s hs => exact .init s hs
  | step s t a hreach hok hs ih =>
    obtain ⟨⟨lost, hinv⟩, -⟩ := reach_cinv (hreach.mono fun _ _ _ hok => hok.1)
    refine .step s t a ih ⟨?_, hok.2⟩ hs
    cases a with
    | writeData => exact fun m hm _ => hinv.manager_inv hm
    | defragmentData => exact fun m hm _ => hinv.manager_inv hm
    | _ => trivial

/-- In every run whose steps are counted right, `m_memoryUsed` is the memory usage of all block
managers in memory, and has not wrapped if the sum has not. -/
theorem memory_exact (hz : GzipOk sh) (h : (server sh).Reach (Counted sh) s) :
    s.store.MemoryExact sh ∧ (totalUsage sh s.store.m_dataIndexes < 2 ^ 64 →
      s.store.m_memoryUsed.toNat = totalUsage sh s.store.m_dataIndexes) := by
  have hexact : s.store.MemoryExact sh := memory_reach (h.mono fun _ _ _ hok => hok.defragOk hz)
  refine ⟨hexact, fun hlt => ?_⟩
  rw [hexact, UInt64.toNat_ofNat', Nat.mod_eq_of_lt hlt]

/-! ## Runs on concrete inputs -/

/-- A step that can end in no defragmentation: a write below the record limit, or none. -/
def unlimitedTest (sh : Shared) (s : Sys) : Action → Bool
  | .writeData _ cfg _ x y _ => (s.store.managerOf sh x).all fun m =>
    !Blman.limitReached cfg (m.indexAfterUpdate y)
  | .defragmentData _ _ _ => false
  | _ => true

theorem foretold_of_test (h : s.unlimitedTest sh a = true) : s.Foretold sh a := by
  cases a with
  | writeData w cfg cfgs x y pRecord =>
    intro m hm hcompacts
    rw [unlimitedTest, hm, Option.all_some, hcompacts.limit] at h
    cases h
  | defragmentData => cases h
  | _ => trivial

/-- The write of a record of 3000 bytes. -/
def putLarge (y : UInt64) : Action :=
  .writeData 0 (plainCfg 1000 5) (fun _ => plainCfg 1000 5) 7 y (List.replicate 3000 1)

/-- The defragmentation of `X = 7`. -/
def compact : Action := .defragmentData 0 (fun _ => plainCfg 1000 5) 7

/-- Two records fill a block each. When the first of them has been deleted, the other one and a
small record fit into one block, and a defragmentation gives the other block back. -/
theorem memory_exact_shrunk : ∃ s t, (server Shared.plain).Reach (Counted Shared.plain) s
    ∧ s.step Shared.plain compact = some t
    ∧ t.store.m_memoryUsed + 4096 = s.store.m_memoryUsed
    ∧ t.store.MemoryExact Shared.plain ∧ (totalUsage Shared.plain t.store.m_dataIndexes < 2 ^ 64 →
      t.store.m_memoryUsed.toNat = totalUsage Shared.plain t.store.m_dataIndexes) := by
  have hrun : (fresh.bind fun s => (server Shared.plain).run
      (fun s a => smallTest s a && s.unlimitedTest Shared.plain a) s
      [putLarge 1, putLarge 2, put 0 7 3, .deleteRecord 0 7 1]).any
      (fun s => smallTest s compact
        && ((s.store.managerOf Shared.plain 7).all fun m => decide
          ((∀ r ∈ m.layout.flatten, (expand Shared.plain r.data).length < 65536)
            ∧ Blman.memoryOf Shared.plain ((Blman.repackNeeds Shared.plain
                (fun _ => plainCfg 1000 5) m.layout).length - m.layout.flatten.length)
              (Blman.firstFit Shared.plain (fun _ => plainCfg 1000 5) m.layout - m.layout.length)
              < 0 ∧ m.layout.flatten.length ≤ 1000))
        && (s.step Shared.plain compact).any fun t =>
          decide (t.store.m_memoryUsed + 4096 = s.store.m_memoryUsed)) = true := by
    decide +kernel
  have htest : ∀ (s : Sys) (a : Action) (t : Sys),
      (smallTest s a && s.unlimitedTest Shared.plain a) = true →
      Small s a t ∧ s.Foretold Shared.plain a := by
    intro s a t h
    rw [Bool.and_eq_true] at h
    exact ⟨small_of_test s a t h.1, foretold_of_test h.2⟩
  obtain ⟨s0, s, hs0, hsteps, hs⟩ := exists_run _ htest hrun
  have hreach := (Machine.Reach.init s0 hs0).steps hsteps
  rw [Bool.and_eq_true, Bool.and_eq_true] at hs
  obtain ⟨⟨hsmall, hnumbers⟩, hstep⟩ := hs
  obtain ⟨t, ht, husage⟩ := (Option.any_eq_true _ _).mp hstep
  have hforetold : s.Foretold Shared.plain compact := by
    intro m hm _
    rw [hm, Option.all_some, decide_eq_true_eq] at hnumbers
    obtain ⟨hsizes, hshrinks, hle⟩ := hnumbers
    refine ⟨fun _ => Or.inr ⟨?_, ?_⟩, hsizes, ?_⟩
    · show (m.layout.flatten.length : Int) ≤ 1000
      omega
    · show (1000 : Int) < 2 ^ 31
      decide
    · rw [if_pos hshrinks]
  have hlast := reach_counted
    (hreach.step s t compact ⟨small_of_test s compact t hsmall, hforetold⟩ ht)
  exact ⟨s, t, reach_counted hreach, ht, of_decide_eq_true husage,
    memory_exact Shared.gzipOk_plain hlast⟩

/-- With a limit of 1, a write removes the two records there are and ends in a
defragmentation, which changes nothing more: the usage of the two is still counted. -/
theorem not_counted : ∃ s, (server Shared.plain).Reach (fun _ _ _ => True) s
    ∧ ¬ s.store.MemoryExact Shared.plain := by
  have hrun : (fresh.bind fun s => (server Shared.plain).run (fun _ _ => true) s
      [put 0 7 1,
        put 0 7 3,
        .writeData 0 (plainCfg 1 1) (fun _ => plainCfg 1 1) 7 5 [1, 2, 3]]).any
      (fun s => s.store.m_memoryUsed
        != UInt64.ofNat (totalUsage Shared.plain s.store.m_dataIndexes)) = true := by
    decide +kernel
  obtain ⟨s, t, hs, hsteps, ht⟩ :=
    exists_run _ (fun (_ : Sys) (_ : Action) (_ : Sys) (_ : true = true) => trivial) hrun
  refine ⟨t, (Machine.Reach.init s hs).steps hsteps, fun hexact => ?_⟩
  rw [hexact, bne_self_eq_false] at ht
  cases ht

end Sys

end TransDB
