/-
Whether `blman_write_record` comes to an end.

The record-limit loop has no exit for an empty tree: a turn that finds no node
changes nothing and tests the same count against the same limit again. With a
limit of 0 the count always reaches it, so the loop spins unless it meets a key
newer than the one to write. Any other `int` either is reached by a count above
0 only, or, if it is negative, becomes a `size_t` no empty tree reaches. The
block search ends after one new block at most, as long as one can be counted.
-/
import TransDB.BlockManagerRoom
import TransDB.BlockBuilt

set_option autoImplicit false

namespace TransDB

theorem AvlTable.count_erase {t : AvlTable} {k : UInt64} (h : k ∈ t) :
    count (t.erase k) + 1 = t.count := by
  have hpos : 0 < t.inOrder.length := List.length_pos_of_mem (mem_inOrder.mpr h)
  rw [← length_inOrder, ← length_inOrder, inOrder_erase,
    List.length_erase_of_mem (mem_inOrder.mpr h)]
  omega

theorem AvlTable.mem_of_first {t : AvlTable} {k : UInt64} (h : t.first = some k) : k ∈ t :=
  mem_inOrder.mp (List.mem_of_mem_head? h)

theorem AvlTable.eq_nil_of_first {t : AvlTable} (h : t.first = none) (k : UInt64) : k ∉ t := by
  intro hk
  have hnil : t.inOrder = [] := List.head?_eq_none_iff.mp h
  have hmem := mem_inOrder.mpr hk
  rw [hnil] at hmem
  cases hmem

namespace Blman

/-- No `int` but 0 is reached by an empty tree. -/
theorem countReaches_zero {limit : Int} (hmin : -2 ^ 31 ≤ limit) (hmax : limit < 2 ^ 31) :
    countReaches 0 limit = true ↔ limit = 0 := by
  rw [countReaches, decide_eq_true_eq]
  omega

/-! ## The turns of the loop -/

/-- A turn of the `while` of phase 2 that comes back to its test. -/
inductive LimitTurn (limit : Int) (recordkey : UInt64) : Blman → Blman → Prop
  | noNode (m : Blman) (hlim : countReaches m.blockIndex.count limit = true)
    (hnode : m.blockIndex.first = none) : LimitTurn limit recordkey m m
  | removed (m m' : Blman) (node : UInt64) (blockNumber : ℕ)
    (hlim : countReaches m.blockIndex.count limit = true)
    (hnode : m.blockIndex.first = some node) (hnew : ¬ recordkey < node)
    (hl : m.blockIndex.lookup node = some blockNumber)
    (hd : m.deleteRecordByNode node blockNumber = some m') : LimitTurn limit recordkey m m'

namespace LimitTurn

variable {limit : Int} {recordkey : UInt64} {m m' : Blman}

/-- `recordLimitLoop` takes these turns, and gives up at a turn that leaves the
manager as it was. -/
theorem loop_eq (ht : LimitTurn limit recordkey m m') (fuel i : ℕ) :
    recordLimitLoop (fun _ => limit) recordkey (fuel + 1) i m
      = if m.blockIndex.first = none then none
        else recordLimitLoop (fun _ => limit) recordkey fuel (i + 1) m' := by
  cases ht with
  | noNode hlim hnode => rw [recordLimitLoop, if_pos hlim, hnode, if_pos rfl]
  | removed _ node blockNumber hlim hnode hnew hl hd =>
    rw [recordLimitLoop, if_pos hlim, hnode]
    simp only [if_neg hnew, hl, hd, Option.bind_eq_bind, Option.bind_some, reduceCtorEq, if_false]

/-- A key a turn takes out is not newer than the one to write. -/
theorem keeps_newer (ht : LimitTurn limit recordkey m m') {k : UInt64} (hk : k ∈ m.blockIndex)
    (hlt : recordkey < k) : k ∈ m'.blockIndex := by
  cases ht with
  | noNode => exact hk
  | removed _ node blockNumber hlim hnode hnew hl hd =>
    rw [deleteRecordByNode_index hd, AList.mem_erase]
    refine ⟨?_, hk⟩
    rintro rfl
    exact hnew hlt

theorem run_keeps_newer (hrun : Relation.ReflTransGen (LimitTurn limit recordkey) m m')
    {k : UInt64} (hk : k ∈ m.blockIndex) (hlt : recordkey < k) : k ∈ m'.blockIndex := by
  induction hrun with
  | refl => exact hk
  | tail _ ht ih => exact ht.keeps_newer ih hlt

/-- A turn lowers the count, unless the tree is empty. -/
theorem progress (ht : LimitTurn limit recordkey m m') :
    m'.blockIndex.count < m.blockIndex.count ∨ m.blockIndex.first = none := by
  cases ht with
  | noNode hlim hnode => exact Or.inr hnode
  | removed _ node blockNumber hlim hnode hnew hl hd =>
    left
    have hcount := AvlTable.count_erase (AvlTable.mem_of_first hnode)
    rw [deleteRecordByNode_index hd]
    omega

end LimitTurn

variable {m : Blman}

/-- With a limit of 0 the loop leaves only when it meets a newer key. -/
theorem recordLimitLoop_zero {recordkey : UInt64} (ks : List UInt64) :
    ∀ (m : Blman) (i fuel : ℕ), m.Inv → m.blockIndex.inOrder = ks → ks.length < fuel →
      (recordLimitLoop (fun _ => 0) recordkey fuel i m = none ↔ ∀ k ∈ ks, ¬ recordkey < k) := by
  have hreach : ∀ n, countReaches n 0 = true := fun n => decide_eq_true (Nat.zero_le n)
  induction ks with
  | nil =>
    intro m i fuel h hks hfuel
    obtain ⟨fuel, rfl⟩ : ∃ n, fuel = n + 1 := ⟨fuel - 1, by omega⟩
    have hnode : m.blockIndex.first = none := by rw [AvlTable.first, hks]; rfl
    rw [(LimitTurn.noNode m (hreach _) hnode).loop_eq, if_pos hnode]
    exact ⟨fun _ k hk => absurd hk List.not_mem_nil, fun _ => rfl⟩
  | cons k ks ih =>
    intro m i fuel h hks hfuel
    obtain ⟨fuel, rfl⟩ : ∃ n, fuel = n + 1 := ⟨fuel - 1, by omega⟩
    have hnode : m.blockIndex.first = some k := by rw [AvlTable.first, hks]; rfl
    rw [List.forall_mem_cons]
    by_cases hold : recordkey < k
    · rw [recordLimitLoop, if_pos (hreach _), hnode]
      simp only [hold, not_true_eq_false, false_and, if_true, reduceCtorEq]
    · obtain ⟨n, hl⟩ := Option.isSome_iff_exists.mp
        (AList.lookup_isSome.mpr (AvlTable.mem_of_first hnode))
      obtain ⟨m1, hd, hidx, hb⟩ := deleteRecordByNode_spec h hl
      have hks1 : m1.blockIndex.inOrder = ks := by
        rw [hidx, AvlTable.inOrder_erase, hks, List.erase_cons_head]
      have hfuel1 : ks.length < fuel := by
        rw [List.length_cons] at hfuel
        omega
      rw [(LimitTurn.removed m m1 k n (hreach _) hnode hold hl hd).loop_eq, hnode,
        if_neg (by rintro ⟨⟩), ih m1 (i + 1) fuel hb.inv hks1 hfuel1]
      exact ⟨fun hall => ⟨hold, hall⟩, fun hall => hall.2⟩

/-! ## Termination -/

section Write

variable (sh : Shared) (cfg : WriteCfg) (limit : Int) (m) (recordkey : UInt64)
  (record : List UInt8)

/-- The limit loop is entered with a limit of 0 and finds no newer key. -/
structure Spins : Prop where
  size : record.length ≤ MAX_RECORD_SIZE
  moves : m.roomFor recordkey (compressRecord sh cfg record).length = false
  enabled : cfg.EnableRecordLimit = true
  zero : limit = 0
  newest : ∀ k ∈ m.blockIndex, ¬ recordkey < k

/-- What it means for a write to terminate. -/
structure Terminates : Prop where
  /-- It returns, with one new block at most. -/
  returns : ∃ st m', m.writeRecord sh cfg recordkey record = some (st, m')
    ∧ m'.blockCount ≤ m.blockCount + 1
  /-- Each turn of the limit loop, from the manager phase 1 leaves on, makes
  progress. -/
  progress : ∀ m1 s s' : Blman, record.length ≤ MAX_RECORD_SIZE →
    cfg.EnableRecordLimit = true →
    m.tryUpdate recordkey (compressRecord sh cfg record) = some (false, m1) →
    Relation.ReflTransGen (LimitTurn limit recordkey) m1 s → LimitTurn limit recordkey s s' →
    s'.blockIndex.count < s.blockIndex.count

variable {sh cfg limit m recordkey record}

theorem tryUpdate_false (h : m.Inv) {m1 : Blman} {record : List UInt8}
    (hup : m.tryUpdate recordkey record = some (false, m1)) :
    m1.Inv ∧ m.roomFor recordkey record.length = false
      ∧ m1.blockIndex = m.blockIndex.erase recordkey := by
  obtain ⟨updated, m1', hup', -, hout⟩ := tryUpdate_spec h recordkey record
  rw [hup] at hup'
  cases hup'
  obtain ⟨hroom, hidx, -, hb⟩ := hout rfl
  exact ⟨hb.inv, hroom, hidx⟩

/-- The loop is stuck exactly when it spins on an empty tree. -/
theorem Inv.stuckInLimit_iff (h : m.Inv) (hcfg : cfg.RecordLimit = fun _ => limit)
    (hmin : -2 ^ 31 ≤ limit) (hmax : limit < 2 ^ 31) :
    m.StuckInLimit sh cfg recordkey record ↔ m.Spins sh cfg limit recordkey record := by
  have hnewest : ∀ {m1 : Blman}, m1.blockIndex = m.blockIndex.erase recordkey →
      ((∀ k ∈ m1.blockIndex.inOrder, ¬ recordkey < k) ↔ ∀ k ∈ m.blockIndex, ¬ recordkey < k) := by
    intro m1 hidx
    constructor
    · intro hall k hk hlt
      refine hall k (AvlTable.mem_inOrder.mpr ?_) hlt
      rw [hidx, AList.mem_erase]
      refine ⟨?_, hk⟩
      rintro rfl
      exact UInt64.lt_irrefl _ hlt
    · intro hall k hk
      rw [AvlTable.mem_inOrder, hidx, AList.mem_erase] at hk
      exact hall k hk.2
  have hzero : ∀ m1 : Blman, m1.Inv → cfg.EnableRecordLimit = true → limit = 0 →
      (m1.checkRecordLimit cfg recordkey = none
        ↔ ∀ k ∈ m1.blockIndex.inOrder, ¬ recordkey < k) := by
    intro m1 h1 hen hlimit
    have hreach : countReaches m1.blockIndex.count 0 = true := decide_eq_true (Nat.zero_le _)
    rw [← recordLimitLoop_zero _ m1 0 (m1.blockIndex.count + 1) h1 rfl
      (by rw [AvlTable.length_inOrder]; omega), checkRecordLimit, hen, hcfg, hlimit, hreach]
    cases recordLimitLoop (fun _ => 0) recordkey (m1.blockIndex.count + 1) 0 m1 with
    | none => exact ⟨fun _ => rfl, fun _ => rfl⟩
    | some p =>
      obtain ⟨e, m2⟩ := p
      cases e with
      | refused => exact ⟨by rintro ⟨⟩, by rintro ⟨⟩⟩
      | passed => exact ⟨by rintro ⟨⟩, by rintro ⟨⟩⟩
  constructor
  · rintro ⟨hsize, m1, hup, hnone⟩
    obtain ⟨h1, hroom, hidx⟩ := tryUpdate_false h hup
    rcases checkRecordLimit_spec cfg recordkey h1 with ⟨st, m2, hsome, -⟩ | ⟨-, hen, j, hj⟩
    · rw [hnone] at hsome
      cases hsome
    · rw [hcfg] at hj
      have hlimit := (countReaches_zero hmin hmax).mp hj
      exact ⟨hsize, hroom, hen, hlimit, (hnewest hidx).mp ((hzero m1 h1 hen hlimit).mp hnone)⟩
  · intro hs
    obtain ⟨updated, m1, hup, hin, -⟩ := tryUpdate_spec h recordkey (compressRecord sh cfg record)
    cases updated with
    | true =>
      have hroom := (hin rfl).2.1
      rw [hs.moves] at hroom
      cases hroom
    | false =>
      obtain ⟨h1, -, hidx⟩ := tryUpdate_false h hup
      exact ⟨hs.size, m1, hup,
        (hzero m1 h1 hs.enabled hs.zero).mpr ((hnewest hidx).mpr hs.newest)⟩

/-- Of the four ways a write ends, one adds a block, and one only. -/
theorem Wrote.count_le {st : WriteStatus} {m' : Blman}
    (hw : m.Wrote sh cfg recordkey record st m') : m'.blockCount ≤ m.blockCount + 1 := by
  cases hre : st.reallocatedBlocks with
  | false => exact Nat.le_succ_of_le (Nat.le_of_eq (hw.count hre))
  | true =>
    cases hw with
    | tooBig => exact Nat.le_succ _
    | updated _ hsize hkey hroom hm => exact Nat.le_succ_of_le (Nat.le_of_eq hm.count)
    | refused _ _ hsize hst hsmall hroom hold hsame hm =>
      exact Nat.le_succ_of_le (Nat.le_of_eq hm.count)
    | stored _ _ hsize hst hsmall hroom hold hdefrag hinv hcontents hframe hcount =>
      rw [hre] at hcount
      exact Nat.le_of_eq hcount

theorem Inv.limit_progress (h : m.Inv) (hmin : -2 ^ 31 ≤ limit) (hmax : limit < 2 ^ 31)
    (hs : ¬ m.Spins sh cfg limit recordkey record) {m1 s s' : Blman}
    (hsize : record.length ≤ MAX_RECORD_SIZE) (hen : cfg.EnableRecordLimit = true)
    (hup : m.tryUpdate recordkey (compressRecord sh cfg record) = some (false, m1))
    (hrun : Relation.ReflTransGen (LimitTurn limit recordkey) m1 s)
    (ht : LimitTurn limit recordkey s s') : s'.blockIndex.count < s.blockIndex.count := by
  rcases ht.progress with hlt | hnode
  · exact hlt
  obtain ⟨-, hroom, hidx⟩ := tryUpdate_false h hup
  have hempty : s.blockIndex.count = 0 := by
    rw [← AvlTable.length_inOrder, List.head?_eq_none_iff.mp hnode]
    rfl
  have hlimit : limit = 0 := by
    rw [← countReaches_zero hmin hmax, ← hempty]
    cases ht with
    | noNode hlim => exact hlim
    | removed _ node blockNumber hlim => exact hlim
  refine absurd ⟨hsize, hroom, hen, hlimit, fun k hk hlt => ?_⟩ hs
  have hk1 : k ∈ m1.blockIndex := by
    rw [hidx, AList.mem_erase]
    refine ⟨?_, hk⟩
    rintro rfl
    exact UInt64.lt_irrefl _ hlt
  exact AvlTable.eq_nil_of_first hnode k (LimitTurn.run_keeps_newer hrun hk1 hlt)

end Write

/-- A write terminates unless it spins on the empty tree or needs a block that
cannot be counted. -/
theorem write_terminates_iff {sh : Shared} {m : Blman} (h : Live sh m) {cfg : WriteCfg}
    {limit : Int} (hcfg : cfg.RecordLimit = fun _ => limit) (hmin : -2 ^ 31 ≤ limit)
    (hmax : limit < 2 ^ 31) (recordkey : UInt64) (record : List UInt8) :
    m.Terminates sh cfg limit recordkey record
      ↔ ¬ m.Spins sh cfg limit recordkey record ∧ ¬ m.Overflows sh cfg recordkey record := by
  have hinv := h.inv
  have hnone : m.writeRecord sh cfg recordkey record = none ↔ _ := hinv.writeRecord_none_iff
  rw [hinv.stuckInLimit_iff hcfg hmin hmax] at hnone
  rw [← not_or, ← hnone]
  constructor
  · intro ht hn
    obtain ⟨st, m', hw, -⟩ := ht.returns
    rw [hn] at hw
    cases hw
  · intro hn
    refine ⟨?_, fun m1 s s' hsize hen hup hrun ht => ?_⟩
    · obtain ⟨⟨st, m'⟩, hw⟩ := Option.ne_none_iff_exists'.mp hn
      exact ⟨st, m', hw, (writeRecord_cases hinv hw).count_le⟩
    · exact hinv.limit_progress hmin hmax (fun hs => hn (hnone.mpr (Or.inl hs))) hsize hen hup
        hrun ht

/-- Room for one record. -/
def limitOne : WriteCfg := ⟨256, 5, true, fun _ => 1, 5⟩

/-- A manager that has the record it has room for, and the write of a newer one. -/
theorem write_terminates_iff_full : ∃ m st m', create none = some m
    ∧ m.writeRecord Shared.plain limitOne 1 [1, 2, 3] = some (st, m')
    ∧ limitReached limitOne m'.blockIndex = true
    ∧ m'.Terminates Shared.plain limitOne 1 7 [1, 2, 3] := by
  obtain ⟨m, hm, hinv, hnone⟩ := create_none
  have hkey : (1 : UInt64) ∉ m.blockIndex := hinv.contents_eq_none.mp (congrFun hnone 1)
  have hempty : m.blockIndex.count = 0 := by
    rw [← Option.some.inj (Eq.trans rfl hm)]
    rfl
  have hlim : limitReached limitOne m.blockIndex = false := by
    rw [limitReached, hempty]
    decide
  have hone := create_count hm
  have hsize : [(1 : UInt8), 2, 3].length ≤ MAX_RECORD_SIZE := by decide
  rcases writeRecord_new Shared.plain hinv hkey hlim hsize with
    ⟨st, m', hw, hadd⟩ | ⟨-, hfull⟩
  · refine ⟨m, st, m', hm, hw, ?_, ?_⟩
    · rw [limitReached, hadd.count, hempty]
      decide
    · refine (write_terminates_iff (Live.write m m' _ _ _ st (Live.new m hm) hw) rfl (by decide)
        (by decide) 7 _).mpr ⟨fun hs => absurd hs.zero (by decide), fun hov => ?_⟩
      have hle := (writeRecord_cases hinv hw).count_le
      rw [hov.last, hone] at hle
      exact absurd hle (by decide)
  · rw [frees_create hm] at hfull
    exact absurd (by decide) hfull

/-- A first record under a limit of 0: the loop comes back to the manager it had. -/
theorem write_spins : ∃ m, create none = some m ∧ LimitTurn 0 7 m m
    ∧ m.writeRecord Shared.plain ⟨256, 5, true, fun _ => 0, 5⟩ 7 [1, 2, 3] = none
    ∧ ¬ m.Terminates Shared.plain ⟨256, 5, true, fun _ => 0, 5⟩ 0 7 [1, 2, 3] := by
  obtain ⟨m, hm, hinv, hnone⟩ := create_none
  have hempty : ∀ k, k ∉ m.blockIndex := fun k => hinv.contents_eq_none.mp (congrFun hnone k)
  have hnode : m.blockIndex.first = none := by
    cases hf : m.blockIndex.first with
    | none => rfl
    | some k => exact absurd (AvlTable.mem_of_first hf) (hempty k)
  have hroom : ∀ size, m.roomFor 7 size = false := fun size => by
    rw [roomFor, AList.lookup_eq_none.mpr (hempty 7)]
  have hspins : m.Spins Shared.plain ⟨256, 5, true, fun _ => 0, 5⟩ 0 7 [1, 2, 3] :=
    ⟨by decide, hroom _, rfl, rfl, fun k hk => absurd hk (hempty k)⟩
  have hwrite := hinv.writeRecord_none_iff.mpr
    (Or.inl ((hinv.stuckInLimit_iff rfl (by decide) (by decide)).mpr hspins))
  refine ⟨m, hm, .noNode m (decide_eq_true (Nat.zero_le _)) hnode, hwrite, fun ht => ?_⟩
  obtain ⟨st, m', hw, -⟩ := ht.returns
  rw [hwrite] at hw
  cases hw

end Blman

end TransDB
