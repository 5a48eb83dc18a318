/-
What a refused write changes.

`WriteData` creates an X that is not there before `blman_write_record` looks at the
record, and nothing takes it back when the record is refused. An X that is there loses
what `blman_write_record` had removed before it found the record too old; `Forgets` of
`SystemEvict` says when it had.
-/
import TransDB.SystemFlush
import TransDB.SystemResident

set_option autoImplicit false

namespace TransDB

open Storage

/-- The same X, each with the same records. -/
structure Storage.Unchanged (sh : Shared) (st st' : Storage) : Prop where
  keys : ∀ x, x ∈ st'.m_dataIndexes ↔ x ∈ st.m_dataIndexes
  records : ∀ x, st'.recordsOf sh x = st.recordsOf sh x

/-- `WriteData` refuses the record. -/
def WriteStatus.Refused (status : WriteStatus) : Prop :=
  status.failRecordTooBig = true ∨ status.oldRecord = true

namespace Blman

variable {sh : Shared} {cfg : WriteCfg} {m m' : Blman} {recordkey : UInt64} {record : List UInt8}
  {status : WriteStatus}

/-- A refused record leaves the manager its records if and only if nothing was removed
for it. -/
theorem Wrote.refused_iff (h : m.Inv) (hw : m.Wrote sh cfg recordkey record status m')
    (href : status.Refused) :
    m'.contents = m.contents ↔ ¬ m.Forgets sh cfg recordkey record := by
  rcases href with hbig | hold
  · cases hw with
    | tooBig hsize =>
      refine iff_of_true rfl ?_
      rintro ⟨hsmall, -⟩
      exact absurd hsmall (Nat.not_le.mpr hsize)
    | updated _ _ _ _ _ => cases hbig
    | refused _ _ _ _ hsmall _ _ _ _ =>
      rw [hsmall] at hbig
      cases hbig
    | stored _ _ _ _ hsmall _ _ _ _ _ _ _ =>
      rw [hsmall] at hbig
      cases hbig
  · rw [hw.forgets_iff h hold, not_not]

end Blman

/-- The manager a request works on. -/
theorem EntryOk.manager_inv {f : DataFile} {r : RecordIndex} {m : Blman} (h : EntryOk f r)
    (hm : r.managerIn f = some m) : m.Inv := by
  cases hmgr : r.m_pBlockManager with
  | some m0 =>
    rw [RecordIndex.managerIn_resident f hmgr] at hm
    cases hm
    exact h.manager m hmgr
  | none =>
    rw [RecordIndex.managerIn, hmgr] at hm
    dsimp only at hm
    split at hm
    case isTrue => cases hm
    case isFalse hrel =>
      obtain ⟨bs, hst, -⟩ := h.stored (Bool.eq_false_iff.mpr hrel)
      rw [hst.read, Option.bind_some] at hm
      exact (Blman.create_some hst.sound hst.nonempty hst.count_lt hm).1

namespace Storage

variable {sh : Shared} {cfg : WriteCfg} {cfgs : ℕ → WriteCfg} {st st' : Storage}
  {lru lru' : LRUCache} {x y : UInt64} {pRecord : List UInt8} {status : WriteStatus}

/-- The files are only read. -/
theorem CheckBlockManager_files {r r' : RecordIndex} {m : Blman}
    (h : st.CheckBlockManager sh x r = some (st', r', m)) : st'.files = st.files := by
  rw [CheckBlockManager] at h
  split at h
  · cases h
    rfl
  · split at h
    · cases h
    · obtain ⟨bs, -, h⟩ := Option.bind_eq_some_iff.mp h
      obtain ⟨m0, -, h⟩ := Option.bind_eq_some_iff.mp h
      cases h
      rfl

/-- What a refused write leaves of an X that was there: the manager, as the write left it,
and nothing else. -/
theorem WriteData_refused {r : RecordIndex} (hx : st.m_dataIndexes.lookup x = some r)
    (hw : st.WriteData sh cfg cfgs lru x y pRecord = some (status, st', lru'))
    (href : status.Refused) :
    ∃ m m', st.managerOf sh x = some m ∧ m.writeRecord sh cfg y pRecord = some (status, m')
      ∧ st'.m_dataIndexes.lookup x = some { r with m_pBlockManager := some m' }
      ∧ st.SameBut x st' ∧ st'.files = st.files := by
  obtain ⟨lru1, -, hw⟩ := Option.bind_eq_some_iff.mp hw
  rw [hx] at hw
  obtain ⟨⟨st1, r1, m⟩, hcheck, hw⟩ := Option.bind_eq_some_iff.mp hw
  obtain ⟨⟨status1, m'⟩, hrecord, hw⟩ := Option.bind_eq_some_iff.mp hw
  obtain ⟨st2, hafter, hw⟩ := Option.bind_eq_some_iff.mp hw
  cases hw
  obtain ⟨e, he, rfl⟩ := afterWrite_eq hrecord hafter
  obtain ⟨m2, hrecord2, hcases⟩ := Edit.write_cases he
  rw [hrecord] at hrecord2
  cases hrecord2
  have hedit : e.after = m' ∧ e.relocate = false ∧ e.queued = false := by
    rcases hcases with ⟨-, rfl⟩ | ⟨-, -, rfl⟩ | ⟨hsmall, hnew, -⟩ | ⟨hsmall, hnew, -⟩
    · exact ⟨rfl, rfl, rfl⟩
    · exact ⟨rfl, rfl, rfl⟩
    all_goals
      rcases href with hbig | hold
      · rw [hsmall] at hbig
        cases hbig
      · rw [hnew] at hold
        cases hold
  obtain ⟨hmgr, hrel, hqueued⟩ := hedit
  have hlive : (e.apply st1 x r1).m_dataIndexes = _ := Edit.apply_dataIndexes
  have hother : st.SameBut x (e.apply st1 x r1) :=
    (CheckBlockManager_sameBut hcheck).trans (SameBut.insert hlive)
  refine ⟨m, m', managerOf_eq hx hcheck, hrecord, ?_, hother, ?_⟩
  · rw [hlive, AList.lookup_insert, CheckBlockManager_entry hcheck, hmgr, hrel, hqueued]
    simp only [Bool.or_false]
  · rw [Edit.apply_sameDisk.files, CheckBlockManager_files hcheck]

/-- The X is created before the record is looked at. -/
theorem WriteData_creates (hx : st.m_dataIndexes.lookup x = none)
    (hw : st.WriteData sh cfg cfgs lru x y pRecord = some (status, st', lru')) :
    x ∈ st'.m_dataIndexes := by
  obtain ⟨lru1, -, hw⟩ := Option.bind_eq_some_iff.mp hw
  rw [hx] at hw
  obtain ⟨⟨status1, st1⟩, hnew, hw⟩ := Option.bind_eq_some_iff.mp hw
  cases hw
  obtain ⟨m, blockCount, -, rfl⟩ := writeNew_cases hnew
  exact (AList.mem_insert _).mpr (Or.inl rfl)

/-- A refused write changes nothing exactly if the X is there, and nothing was removed from
it. -/
theorem WriteData_unchanged_iff
    (hok : ∀ x r, st.m_dataIndexes.lookup x = some r → EntryOk st.files.data r)
    (hw : st.WriteData sh cfg cfgs lru x y pRecord = some (status, st', lru'))
    (href : status.Refused) :
    st.Unchanged sh st'
      ↔ x ∈ st.m_dataIndexes ∧ ∀ m ∈ st.managerOf sh x, ¬ m.Forgets sh cfg y pRecord := by
  cases hx : st.m_dataIndexes.lookup x with
  | none =>
    have hnot : x ∉ st.m_dataIndexes := by
      rw [← AList.lookup_isSome, hx]
      exact Bool.false_ne_true
    exact iff_of_false (fun hsame => hnot ((hsame.keys x).mp (WriteData_creates hx hw)))
      fun hmem => hnot hmem.1
  | some r =>
    have hmem : x ∈ st.m_dataIndexes := AList.lookup_isSome.mp (by rw [hx]; rfl)
    obtain ⟨m, m', hm, hrecord, hx', hother, hfiles⟩ := WriteData_refused hx hw href
    have hinv : m.Inv := by
      have hload := hm
      rw [managerOf_eq_managerIn, hx, Option.bind_some] at hload
      exact (hok x r hx).manager_inv hload
    have hafter : st'.recordsOf sh x = some m'.contents := by
      rw [recordsOf, managerOf_eq_managerIn, hx', Option.bind_some,
        RecordIndex.managerIn_resident _ rfl, Option.map_some]
    have hbefore : st.recordsOf sh x = some m.contents := by rw [recordsOf, hm, Option.map_some]
    have hiff := (Blman.writeRecord_cases hinv hrecord).refused_iff hinv href
    constructor
    · intro hsame
      refine ⟨hmem, fun m1 hm1 => ?_⟩
      obtain rfl : m = m1 := by
        rw [Option.mem_def, hm] at hm1
        exact Option.some.inj hm1
      have heq := hsame.records x
      rw [hafter, hbefore] at heq
      exact hiff.mp (Option.some.inj heq)
    · rintro ⟨-, hkept⟩
      have heq : m'.contents = m.contents := hiff.mpr (hkept m hm)
      have hsame : ∀ k, k ≠ x → SameX sh st st' k := fun k hk =>
        .of_lookup (hother k hk) fun r _ => by rw [hfiles]
      refine ⟨fun k => ?_, fun k => ?_⟩
      · by_cases hk : k = x
        · subst hk
          exact iff_of_true (AList.lookup_isSome.mp (by rw [hx']; rfl)) hmem
        · exact (hsame k hk).key
      · by_cases hk : k = x
        · subst hk
          rw [hafter, hbefore, heq]
        · exact (hsame k hk).records

end Storage

namespace Sys

variable {sh : Shared}

/-- A state of a run of the server in which the index file is small, or of any run after a
start without a defragmentation of the free space. -/
def Reachable (sh : Shared) (s : Sys) : Prop :=
  (server sh).Reach Small s ∨ (life sh).Reach (fun _ a _ => a.plain = true) s

theorem Reachable.entry {s : Sys} (h : s.Reachable sh) {x : UInt64} {r : RecordIndex}
    (hx : s.store.m_dataIndexes.lookup x = some r) : EntryOk s.store.files.data r := by
  rcases h with h | h
  · obtain ⟨lost, hinv⟩ := reach_inv h
    exact hinv.data.entry x r hx
  · obtain ⟨⟨lost, hd⟩, -⟩ := reach_qinv h
    exact hd.entry x r hx

/-- A refused write changes nothing if and only if its X is there and the write does not
forget. -/
theorem refused_changes_nothing_iff {s : Sys} (h : s.Reachable sh) {cfg : WriteCfg}
    {cfgs : ℕ → WriteCfg} {lru lru' : LRUCache} {x y : UInt64} {pRecord : List UInt8}
    {status : WriteStatus} {st' : Storage}
    (hw : s.store.WriteData sh cfg cfgs lru x y pRecord = some (status, st', lru'))
    (href : status.Refused) :
    s.store.Unchanged sh st'
      ↔ x ∈ s.store.m_dataIndexes
        ∧ ∀ m ∈ s.store.managerOf sh x, ¬ m.Forgets sh cfg y pRecord :=
  WriteData_unchanged_iff (fun _ _ hx => h.entry hx) hw href

/-- A record of 4082 bytes for an X that is there. -/
theorem refused_changes_nothing_iff_big : ∃ s : Sys, s.Reachable Shared.plain
    ∧ ∃ status st' lru',
      s.store.WriteData Shared.plain (plainCfg 1000 5) (fun _ => plainCfg 1000 5)
          LRUCache.empty 7 2 (List.replicate 4082 0) = some (status, st', lru')
        ∧ status.failRecordTooBig = true ∧ s.store.Unchanged Shared.plain st' := by
  have hrun : (fresh.bind fun s => (server Shared.plain).run smallTest s [put 0 7 1]).any
      (fun s => decide (7 ∈ s.store.m_dataIndexes)
        && (s.store.WriteData Shared.plain (plainCfg 1000 5) (fun _ => plainCfg 1000 5)
          LRUCache.empty 7 2 (List.replicate 4082 0)).any fun p => p.1.failRecordTooBig) = true := by
    decide +kernel
  obtain ⟨s, t, hs, hsteps, ht⟩ := exists_run _ small_of_test hrun
  rw [Bool.and_eq_true, decide_eq_true_eq] at ht
  obtain ⟨⟨status, st', lru'⟩, hw, hbig⟩ := (Option.any_eq_true _ _).mp ht.2
  have hreach : t.Reachable Shared.plain := Or.inl ((Machine.Reach.init s hs).steps hsteps)
  refine ⟨t, hreach, status, st', lru', hw, hbig, ?_⟩
  refine (refused_changes_nothing_iff hreach hw (Or.inl hbig)).mpr ⟨ht.1, fun m _ => ?_⟩
  rintro ⟨hsize, -⟩
  rw [List.length_replicate] at hsize
  exact absurd hsize (by decide)

/-- Refused writes that change something: a record of 4082 bytes creates its X, and a record
2, with a limit of 1, removes the first of the records 1 and 3. -/
theorem refused_changes : ∃ s : Sys, s.Reachable Shared.plain
    ∧ (∃ status st' lru',
      s.store.WriteData Shared.plain (plainCfg 1000 5) (fun _ => plainCfg 1000 5)
          LRUCache.empty 8 1 (List.replicate 4082 0) = some (status, st', lru')
        ∧ status.failRecordTooBig = true ∧ 8 ∉ s.store.m_dataIndexes ∧ 8 ∈ st'.m_dataIndexes
        ∧ ¬ s.store.Unchanged Shared.plain st')
    ∧ ∃ status st' lru',
      s.store.WriteData Shared.plain (plainCfg 1 5) (fun _ => plainCfg 1 5) LRUCache.empty 7 2
          [1, 2, 3] = some (status, st', lru')
        ∧ status.oldRecord = true ∧ ¬ s.store.Unchanged Shared.plain st' := by
  have hrun : (fresh.bind fun s =>
      (server Shared.plain).run smallTest s [put 0 7 1, put 0 7 3]).any
      (fun s => decide (8 ∉ s.store.m_dataIndexes)
        && (s.store.WriteData Shared.plain (plainCfg 1000 5) (fun _ => plainCfg 1000 5)
          LRUCache.empty 8 1 (List.replicate 4082 0)).any (fun p => p.1.failRecordTooBig)
        && (s.store.managerOf Shared.plain 7).any (fun m =>
          decide (m.Forgets Shared.plain (plainCfg 1 5) 2 [1, 2, 3]))
        && (s.store.WriteData Shared.plain (plainCfg 1 5) (fun _ => plainCfg 1 5) LRUCache.empty 7 2
          [1, 2, 3]).any fun p => p.1.oldRecord) = true := by
    decide +kernel
  obtain ⟨s, t, hs, hsteps, ht⟩ := exists_run _ small_of_test hrun
  simp only [Bool.and_eq_true, decide_eq_true_eq] at ht
  obtain ⟨⟨⟨habsent, hnew⟩, hforgets⟩, hold⟩ := ht
  have hreach : t.Reachable Shared.plain := Or.inl ((Machine.Reach.init s hs).steps hsteps)
  refine ⟨t, hreach, ?_, ?_⟩
  · obtain ⟨⟨status, st', lru'⟩, hw, hbig⟩ := (Option.any_eq_true _ _).mp hnew
    have hmem : 8 ∈ st'.m_dataIndexes := by
      refine WriteData_creates ?_ hw
      rwa [AList.lookup_eq_none]
    exact ⟨status, st', lru', hw, hbig, habsent, hmem,
      fun hsame => habsent ((hsame.keys 8).mp hmem)⟩
  · obtain ⟨⟨status, st', lru'⟩, hw, href⟩ := (Option.any_eq_true _ _).mp hold
    obtain ⟨m, hm, hforgets⟩ := (Option.any_eq_true _ _).mp hforgets
    refine ⟨status, st', lru', hw, href, fun hsame => ?_⟩
    have hnot := ((WriteData_unchanged_iff (fun _ _ hx => hreach.entry hx) hw
      (Or.inr href)).mp hsame).2 m hm
    exact hnot (of_decide_eq_true hforgets)

end Sys

end TransDB
