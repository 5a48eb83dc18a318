/-
The memory limit can be met.

`CheckMemory` takes the X that its worker has used least recently out of memory, one after
another, until the limit is met; it gives up at an X that waits to be written, and when the
cache of its worker is empty (`checkMemory_evicts`). No worker looks into the cache of
another. That the limit can be met all the same rests on two invariants: what is in memory
is in the cache of a worker (`reach_cinv`), and `m_memoryUsed` is what is in memory. So when
nothing waits to be written and every worker has come to the end of its loop, in whatever
order they take their turns, the limit is met (`memory_limit_met`).
-/
import TransDB.SystemMemory
import TransDB.SystemResident
import Mathlib.Algebra.Order.BigOperators.Group.List

set_option autoImplicit false

namespace TransDB

/-! ## The loop -/

namespace Storage

variable (sh : Shared)

/-- `Storage::CheckMemory`, with a bound on the turns. -/
def CheckMemoryLoop (limit : UInt64) : ℕ → Storage → LRUCache → Option (Storage × LRUCache)
  | 0, _, _ => none
  | turns + 1, self, rLRUCache =>
    if limit < self.m_memoryUsed then do
      let xToDelete ← rLRUCache.get
      match xToDelete with
      | none => return (self, rLRUCache)
      | some xToDelete =>
        match self.m_dataIndexes.lookup xToDelete with
        | some r =>
          --check if record does not wait in disk thread
          if r.inDiskWriteQueue then return (self, rLRUCache)
          else
            let (_, rLRUCache) ← rLRUCache.remove xToDelete
            CheckMemoryLoop limit turns (self.evict sh xToDelete r) rLRUCache
        | none =>
          let (_, rLRUCache) ← rLRUCache.remove xToDelete
          CheckMemoryLoop limit turns self rLRUCache
    else some (self, rLRUCache)

/-- The loop ends when `oldest` is the X to be taken next. -/
def Ended (limit : UInt64) (st : Storage) (oldest : Option UInt64) : Prop :=
  st.m_memoryUsed ≤ limit ∨ oldest = none
    ∨ ∃ x r, oldest = some x ∧ st.m_dataIndexes.lookup x = some r ∧ r.inDiskWriteQueue = true

/-- An X taken out of memory, if it is there. -/
def evictX (st : Storage) (x : UInt64) : Storage :=
  match st.m_dataIndexes.lookup x with
  | some r => st.evict sh x r
  | none => st

variable {sh} {limit : UInt64} {st : Storage} {lru : LRUCache} {l : List UInt64}

/-- It does not wait more than before. -/
theorem evictX_lookup {x y : UInt64} {r' : RecordIndex}
    (h : (st.evictX sh x).m_dataIndexes.lookup y = some r') :
    ∃ r, st.m_dataIndexes.lookup y = some r ∧ r'.inDiskWriteQueue = r.inDiskWriteQueue := by
  rw [evictX] at h
  cases hx : st.m_dataIndexes.lookup x with
  | none =>
    rw [hx] at h
    exact ⟨r', h, rfl⟩
  | some r =>
    rw [hx] at h
    dsimp only at h
    cases hm : r.m_pBlockManager with
    | none =>
      rw [evict, hm] at h
      exact ⟨r', h, rfl⟩
    | some m =>
      rw [evict_some hm] at h
      rcases Effect.lookup_insert_cases h with ⟨rfl, rfl⟩ | ⟨-, hold⟩
      · exact ⟨r, hx, rfl⟩
      · exact ⟨r', hold, rfl⟩

/-- The loop ends, or it takes the first X of the cache out of memory. -/
theorem CheckMemory_turn (h : lru.IsList l) :
    Ended limit st l.head? ∧ st.CheckMemory sh limit lru = some (st, lru)
        ∧ (∀ turns, CheckMemoryLoop sh limit (turns + 1) st lru = some (st, lru))
      ∨ ¬ Ended limit st l.head? ∧ ∃ x rest lru', l = x :: rest ∧ lru'.IsList rest
        ∧ st.CheckMemory sh limit lru = some (st.evictX sh x, lru')
        ∧ ∀ turns, CheckMemoryLoop sh limit (turns + 1) st lru
          = CheckMemoryLoop sh limit turns (st.evictX sh x) lru' := by
  by_cases hlim : limit < st.m_memoryUsed
  case neg =>
    refine Or.inl ⟨Or.inl (UInt64.not_lt.mp hlim), if_neg hlim, fun turns => if_neg hlim⟩
  case pos =>
    rw [CheckMemory, if_pos hlim, h.get]
    simp only [CheckMemoryLoop, if_pos hlim, h.get, Option.bind_eq_bind, Option.bind_some]
    cases l with
    | nil => exact Or.inl ⟨Or.inr (Or.inl rfl), rfl, fun _ => rfl⟩
    | cons x rest =>
      obtain ⟨lru', hremove, hl⟩ := h.remove x
      rw [List.erase_cons_head] at hl
      have hover : ¬ st.m_memoryUsed ≤ limit := UInt64.not_le.mpr hlim
      rw [List.head?_cons]
      dsimp only
      cases hx : st.m_dataIndexes.lookup x with
      | none =>
        refine Or.inr ⟨?_, x, rest, lru', rfl, hl, ?_, fun turns => ?_⟩
        · rintro (hle | hnone | ⟨x', r, hx', hr, -⟩)
          · exact hover hle
          · cases hnone
          · cases hx'
            rw [hx] at hr
            cases hr
        · rw [hremove, evictX, hx]
          rfl
        · rw [hremove, evictX, hx]
          rfl
      | some r =>
        dsimp only
        by_cases hq : r.inDiskWriteQueue = true
        · exact Or.inl ⟨Or.inr (Or.inr ⟨x, r, rfl, hx, hq⟩), if_pos hq, fun _ => if_pos hq⟩
        · refine Or.inr ⟨?_, x, rest, lru', rfl, hl, ?_, fun turns => ?_⟩
          · rintro (hle | hnone | ⟨x', r', hx', hr', hq'⟩)
            · exact hover hle
            · cases hnone
            · cases hx'
              rw [hx] at hr'
              cases hr'
              exact hq hq'
          · rw [if_neg hq, hremove, evictX, hx]
            rfl
          · rw [if_neg hq, hremove, evictX, hx]
            rfl

/-- The loop takes X out of memory in the order of the cache, and no one more than it must: it
ends at the first turn at which it may. -/
theorem checkMemory_evicts (h : lru.IsList l) {turns : ℕ} (hturns : l.length < turns) :
    ∃ n lru', CheckMemoryLoop sh limit turns st lru = some ((l.take n).foldl (evictX sh) st, lru')
      ∧ lru'.IsList (l.drop n) ∧ Ended limit ((l.take n).foldl (evictX sh) st) (l.drop n).head?
      ∧ ∀ k < n, ¬ Ended limit ((l.take k).foldl (evictX sh) st) (l.drop k).head? := by
  induction l generalizing st lru turns with
  | nil =>
    obtain ⟨turns, rfl⟩ := Nat.exists_eq_succ_of_ne_zero (Nat.ne_of_gt hturns)
    rcases @CheckMemory_turn sh limit st lru [] h with
      ⟨hend, -, hloop⟩ | ⟨hmore, x, rest, lru', hl, -⟩
    · exact ⟨0, lru, hloop turns, h, hend, fun k hk => absurd hk (Nat.not_lt_zero k)⟩
    · cases hl
  | cons x l ih =>
    obtain ⟨turns, rfl⟩ := Nat.exists_eq_succ_of_ne_zero (Nat.ne_of_gt (Nat.zero_lt_of_lt hturns))
    rcases @CheckMemory_turn sh limit st lru (x :: l) h with
      ⟨hend, -, hloop⟩ | ⟨hmore, x', rest, lru1, hl, hl1, -, hloop⟩
    · exact ⟨0, lru, hloop turns, h, hend, fun k hk => absurd hk (Nat.not_lt_zero k)⟩
    · cases hl
      obtain ⟨n, lru', hrun, hl', hend, hbefore⟩ := @ih (st.evictX sh x) lru1 hl1 turns
        (Nat.lt_of_succ_lt_succ hturns)
      refine ⟨n + 1, lru', (hloop turns).trans hrun, hl', hend, fun k hk => ?_⟩
      cases k with
      | zero => exact hmore
      | succ k => exact hbefore k (Nat.lt_of_succ_lt_succ hk)

end Storage

/-! ## The workers -/

/-- The worker that takes the step. -/
def Action.worker : Action → Option ℕ
  | .readRecord w _ _ _ | .readAll w _ _ | .getAllY w _ | .writeData w _ _ _ _ _
  | .deleteData w _ | .deleteRecord w _ _ | .defragmentData w _ _ | .checkMemory w _ => some w
  | _ => none

namespace Sys

variable {sh : Shared} {s t : Sys} {limit : UInt64} {w : ℕ}

/-- The loop of worker `w` ends here. -/
def Ended (limit : UInt64) (s : Sys) (w : ℕ) : Prop :=
  ∃ oldest, (s.lru w).get = some oldest ∧ s.store.Ended limit oldest

/-- The step is a turn of a worker in its loop. -/
def Checks (limit : UInt64) (_ : Sys) (a : Action) (_ : Sys) : Prop := ∃ w, a = .checkMemory w limit

/-- The loop of a worker, run with nothing in between, is a run of turns. -/
theorem loop_steps {turns : ℕ} {st : Storage} {lru : LRUCache} {l : List UInt64}
    (hl : (s.lru w).IsList l)
    (h : Storage.CheckMemoryLoop sh limit turns s.store (s.lru w) = some (st, lru)) :
    (server sh).Steps (Checks limit) s ⟨st, Function.update s.lru w lru, s.disk, s.removing⟩ := by
  induction turns generalizing s l with
  | zero => cases h
  | succ turns ih =>
    rcases Storage.CheckMemory_turn hl with
      ⟨-, -, hloop⟩ | ⟨-, x, rest, lru1, -, hl1, hturn, hloop⟩
    · rw [hloop] at h
      cases h
      rw [Function.update_eq_self]
      exact .refl s
    · rw [hloop] at h
      have hstep : (server sh).step s (.checkMemory w limit)
          = some ⟨s.store.evictX sh x, Function.update s.lru w lru1, s.disk, s.removing⟩ := by
        change s.worker w _ = _
        rw [worker, hturn]
        rfl
      have hself : Function.update s.lru w lru1 w = lru1 := Function.update_self w lru1 s.lru
      rw [← hself] at hl1 h
      have hrest := ih (s := ⟨s.store.evictX sh x, Function.update s.lru w lru1, s.disk, s.removing⟩)
        hl1 h
      rw [Function.update_idem] at hrest
      exact .head _ _ _ _ ⟨w, rfl⟩ hstep hrest

/-- In every reachable state the caches are lists, and what is in memory is in one of them. -/
theorem reach_cinv (h : (server sh).Reach Small s) : s.CInv := by
  induction h with
  | init s hs => exact @AfterInit.cinv sh s (.empty s hs)
  | step s t a hreach hok hs ih =>
    have ht := Machine.Reach.step s t a hreach hok hs
    have hstep : s.step sh a = some t := hs
    cases a with
    | defragmentFreeSpace order =>
      obtain ⟨lost, hinv⟩ := reach_inv ht
      obtain ⟨-, ls, hc⟩ := ih
      obtain ⟨-, -, rfl⟩ := step_defragmentFreeSpace hstep
      exact ⟨⟨_, StorageInv.data hinv⟩, ls, hc.isList, hc.cached⟩
    | restart ReallocSize forceStartup order =>
      exact (AfterInit.files s t ReallocSize forceStartup order hreach hstep).cinv
    | _ => exact ih.step rfl hstep

/-- Two X in memory that have been written, and no memory allowed: both are taken out. -/
theorem checkMemory_evicts_flushed : ∃ s l, (server Shared.plain).Reach Small s
    ∧ (s.lru 0).IsList l ∧ s.store.m_memoryUsed ≠ 0
    ∧ ∃ n lru', Storage.CheckMemoryLoop Shared.plain 0 3 s.store (s.lru 0)
        = some ((l.take n).foldl (Storage.evictX Shared.plain) s.store, lru')
      ∧ ((l.take n).foldl (Storage.evictX Shared.plain) s.store).m_memoryUsed = 0
      ∧ lru'.IsList (l.drop n)
      ∧ Storage.Ended 0 ((l.take n).foldl (Storage.evictX Shared.plain) s.store) (l.drop n).head?
      ∧ ∀ k < n, ¬ Storage.Ended 0 ((l.take k).foldl (Storage.evictX Shared.plain) s.store)
        (l.drop k).head? := by
  have hrun : (fresh.bind fun s => (server Shared.plain).run smallTest s
      [put 0 7 1, put 0 9 1, .beginProcess [], .getItems [7, 9], .processItem ⟨4096, 64⟩,
        .processItem ⟨4096, 64⟩, .endProcess]).any (fun s =>
      decide (s.store.m_memoryUsed ≠ 0 ∧ (s.lru 0).m_pMap.keys.length = 2)
        && (Storage.CheckMemoryLoop Shared.plain 0 3 s.store (s.lru 0)).any fun p =>
          decide (p.1.m_memoryUsed = 0)) = true := by
    decide +kernel
  obtain ⟨s, t, hs, hsteps, ht⟩ := exists_run _ small_of_test hrun
  obtain ⟨hused, hloop⟩ := Bool.and_eq_true_iff.mp ht
  obtain ⟨hused, hkeys⟩ := of_decide_eq_true hused
  obtain ⟨p, hp, hzero⟩ := (Option.any_eq_true _ _).mp hloop
  have hreach := (Machine.Reach.init s hs).steps hsteps
  obtain ⟨-, ls, hc⟩ := reach_cinv hreach
  have hl := hc.isList 0
  have hlen : (ls 0).length < 3 := by
    have hsub := hl.nodup.subperm fun k hk => AList.mem_keys.mp (hl.mem_map.mpr hk)
    have hle := hsub.length_le
    omega
  obtain ⟨n, lru', hrest⟩ := @Storage.checkMemory_evicts Shared.plain 0 t.store
    (t.lru 0) (ls 0) hl 3 hlen
  obtain ⟨hevicts, hlist, hend, hbefore⟩ := hrest
  rw [hevicts] at hp
  cases hp
  exact ⟨t, ls 0, hreach, hl, hused, n, lru', hevicts, of_decide_eq_true hzero, hlist, hend,
    hbefore⟩

/-- Nothing waits to be written. -/
def Written (s : Sys) : Prop :=
  ∀ x r, s.store.m_dataIndexes.lookup x = some r → r.inDiskWriteQueue = false

/-- The turns of the loops keep what the limit rests on. -/
structure Limited (sh : Shared) (s : Sys) : Prop where
  cinv : s.CInv
  exact : s.store.MemoryExact sh
  written : s.Written

theorem Limited.turn (h : Limited sh s) (hs : s.step sh (.checkMemory w limit) = some t) :
    Limited sh t := by
  have hdefrag : DefragOk sh s (.checkMemory w limit) t := fun d hd => by cases hd
  refine ⟨h.cinv.step rfl hs, memory_move h.exact hdefrag (step_move hs), ?_⟩
  rw [step] at hs
  obtain ⟨st, lru, hcheck, rfl⟩ := worker_some hs
  obtain ⟨-, ls, hc⟩ := h.cinv
  rcases @Storage.CheckMemory_turn sh limit s.store _ _ (hc.isList w) with
    ⟨-, hturn, -⟩ | ⟨-, x, rest, lru', -, -, hturn, -⟩
  · rw [hturn] at hcheck
    cases hcheck
    exact h.written
  · rw [hturn] at hcheck
    cases hcheck
    intro y r' hy
    obtain ⟨r, hr, hflag⟩ := Storage.evictX_lookup hy
    rw [hflag]
    exact h.written y r hr

theorem Limited.turns (h : Limited sh s) (hs : (server sh).Steps (Checks limit) s t) :
    Limited sh t := by
  refine hs.invariant (Limited sh) ?_ h
  rintro u a v hu ⟨w, rfl⟩ hstep
  exact hu.turn hstep

/-- When all loops have ended, the limit is met: a cache that has been emptied holds nothing in
memory. -/
theorem Limited.met (h : Limited sh s) (hend : ∀ w, s.Ended limit w) :
    s.store.m_memoryUsed ≤ limit := by
  by_contra hover
  obtain ⟨-, ls, hc⟩ := h.cinv
  have hempty : ∀ w, ls w = [] := by
    intro w
    obtain ⟨oldest, hget, hle | hnone | ⟨x, r, -, hr, hq⟩⟩ := hend w
    · exact absurd hle hover
    · rw [(hc.isList w).get, hnone] at hget
      exact List.head?_eq_none_iff.mp (Option.some.inj hget)
    · rw [h.written x r hr] at hq
      cases hq
  have hnothing : totalUsage sh s.store.m_dataIndexes = 0 := by
    refine List.sum_eq_zero fun n hn => ?_
    obtain ⟨x, r, hx, hn⟩ := KeyMap.mem_collect.mp hn
    by_cases hmgr : r.m_pBlockManager = none
    · rw [residentUsage, hmgr] at hn
      cases hn
    · obtain ⟨w, hw⟩ := hc.cached x ⟨r, hx, hmgr⟩
      rw [hempty] at hw
      cases hw
  have hzero : s.store.m_memoryUsed = 0 := by
    have hexact := h.exact
    rw [Storage.MemoryExact, hnothing] at hexact
    exact hexact
  rw [hzero] at hover
  exact hover (UInt64.le_iff_toNat_le.mpr (Nat.zero_le _))

/-- A worker that has not ended takes an X out of its cache. -/
theorem turn_of_not_ended {l : List UInt64} (hl : (s.lru w).IsList l) (hmore : ¬ s.Ended limit w) :
    ∃ x rest lru' t, l = x :: rest ∧ lru'.IsList rest
      ∧ s.step sh (.checkMemory w limit) = some t ∧ t.lru = Function.update s.lru w lru' := by
  rcases @Storage.CheckMemory_turn sh limit s.store (s.lru w) l hl with
    ⟨hend, -, -⟩ | ⟨-, x, rest, lru', rfl, hl', hturn, -⟩
  · exact absurd ⟨_, hl.get, hend⟩ hmore
  · refine ⟨x, rest, lru', ⟨s.store.evictX sh x, Function.update s.lru w lru', s.disk, s.removing⟩,
      rfl, hl', ?_, rfl⟩
    change s.worker w _ = _
    rw [worker, hturn]
    rfl

/-- All loops can be brought to their end: each turn takes one X out of a cache. -/
theorem exists_ended {ls : ℕ → List UInt64} (workers : List ℕ)
    (hl : ∀ w, (s.lru w).IsList (ls w)) (hw : ∀ w, w ∉ workers → ls w = []) :
    ∃ t, (server sh).Steps (Checks limit) s t ∧ ∀ w, t.Ended limit w := by
  generalize hsize : (workers.map fun w => (ls w).length).sum = size
  induction size using Nat.strong_induction_on generalizing s ls with
  | _ size ih =>
    by_cases hall : ∀ w, s.Ended limit w
    · exact ⟨s, .refl s, hall⟩
    obtain ⟨w, hmore⟩ := not_forall.mp hall
    obtain ⟨x, rest, lru', t, hlist, hl', hstep, ht⟩ :=
      @turn_of_not_ended sh s limit w _ (hl w) hmore
    have hmem : w ∈ workers := by
      by_contra hne
      rw [hw w hne] at hlist
      cases hlist
    have hlt : (workers.map fun v => (Function.update ls w rest v).length).sum < size := by
      rw [← hsize]
      refine List.sum_lt_sum _ _ (fun v _ => ?_) ⟨w, hmem, ?_⟩
      · by_cases hv : v = w
        · subst hv
          rw [Function.update_self, hlist]
          exact Nat.le_succ _
        · rw [Function.update_of_ne hv]
      · rw [Function.update_self, hlist]
        exact Nat.lt_succ_self _
    have hlists : ∀ v, (t.lru v).IsList (Function.update ls w rest v) := by
      intro v
      rw [ht]
      by_cases hv : v = w
      · subst hv
        rw [Function.update_self, Function.update_self]
        exact hl'
      · rw [Function.update_of_ne hv, Function.update_of_ne hv]
        exact hl v
    have hothers : ∀ v, v ∉ workers → Function.update ls w rest v = [] := by
      intro v hv
      have hne : v ≠ w := fun heq => hv (heq ▸ hmem)
      rw [Function.update_of_ne hne]
      exact hw v hv
    obtain ⟨u, hsteps, hend⟩ := ih _ hlt hlists hothers rfl
    exact ⟨u, .head s t u _ ⟨w, rfl⟩ hstep hsteps, hend⟩

/-- A worker function leaves the caches of the other workers alone. -/
theorem worker_other {v : ℕ} {f : LRUCache → Option (Storage × LRUCache)}
    (h : s.worker v f = some t) (hw : v ≠ w) : t.lru w = s.lru w := by
  obtain ⟨st, lru, -, rfl⟩ := worker_some h
  exact Function.update_of_ne (Ne.symm hw) lru s.lru

/-- The cache of a worker changes in its own steps, and is empty after a start. -/
theorem step_other {a : Action} (hinv : s.CInv) (hs : s.step sh a = some t)
    (hw : ∀ v ∈ a.worker, v ≠ w) : t.lru w = s.lru w ∨ t.lru w = LRUCache.empty := by
  by_cases hdisk : a.disk = true
  · obtain ⟨⟨lost, hd⟩, -⟩ := hinv
    rw [(disk_resident hd hdisk hs).1]
    exact Or.inl rfl
  cases a with
  | readRecord v x y pData =>
    rw [step] at hs
    exact Or.inl (worker_other hs (hw v rfl))
  | readAll v x pData =>
    rw [step] at hs
    exact Or.inl (worker_other hs (hw v rfl))
  | getAllY v x =>
    rw [step] at hs
    exact Or.inl (worker_other hs (hw v rfl))
  | writeData v cfg cfgs x y pRecord =>
    rw [step] at hs
    exact Or.inl (worker_other hs (hw v rfl))
  | deleteData v x =>
    obtain ⟨u, hu, hs⟩ := Option.bind_eq_some_iff.mp hs
    cases hs
    have hother : u.lru w = s.lru w := worker_other hu (hw v rfl)
    exact Or.inl hother
  | remove x =>
    rw [step] at hs
    split at hs
    case isTrue =>
      cases hs
      exact Or.inl rfl
    case isFalse => cases hs
  | deleteRecord v x y =>
    rw [step] at hs
    exact Or.inl (worker_other hs (hw v rfl))
  | defragmentData v cfgs x =>
    rw [step] at hs
    exact Or.inl (worker_other hs (hw v rfl))
  | checkMemory v limit =>
    rw [step] at hs
    exact Or.inl (worker_other hs (hw v rfl))
  | defragmentFreeSpace order =>
    obtain ⟨-, -, rfl⟩ := step_defragmentFreeSpace hs
    exact Or.inl rfl
  | restart ReallocSize forceStartup order =>
    obtain ⟨-, -, store, -, rfl⟩ := step_restart hs
    exact Or.inr rfl
  | _ => exact absurd rfl hdisk

/-- The steps of a server with these workers, in which the memory is counted. -/
structure Counts (sh : Shared) (workers : List ℕ) (s : Sys) (a : Action) (t : Sys) : Prop where
  small : Small s a t
  counted : DefragOk sh s a t
  worker : ∀ w ∈ a.worker, w ∈ workers

theorem reach_other {workers : List ℕ} (h : (server sh).Reach (Counts sh workers) s)
    (hw : w ∉ workers) : (s.lru w).IsList [] := by
  induction h with
  | init s hs =>
    obtain ⟨ReallocSize, store, -, rfl⟩ := hs
    exact LRUCache.IsList.empty
  | step s t a hreach hok hs ih =>
    have hne : ∀ v ∈ a.worker, v ≠ w := fun v hv heq => hw (heq ▸ hok.worker v hv)
    rcases step_other (reach_cinv (hreach.mono fun _ _ _ hc => hc.small)) hs hne with hold | hempty
    · rw [hold]
      exact ih
    · rw [hempty]
      exact LRUCache.IsList.empty

/-- **The memory limit can be met**: when nothing waits to be written, the workers bring their
loops to an end, and in whatever order they take their turns, the limit is met when they have. -/
theorem memory_limit_met {workers : List ℕ} (h : (server sh).Reach (Counts sh workers) s)
    (hwritten : s.Written) (limit : UInt64) :
    (∃ t, (server sh).Steps (Checks limit) s t ∧ ∀ w, t.Ended limit w)
      ∧ ∀ t, (server sh).Steps (Checks limit) s t → (∀ w, t.Ended limit w) →
        t.store.m_memoryUsed ≤ limit := by
  have hsmall : (server sh).Reach Small s := h.mono fun _ _ _ hok => hok.small
  have hdefrag : (server sh).Reach (DefragOk sh) s := h.mono fun _ _ _ hok => hok.counted
  have hlimited : Limited sh s := ⟨reach_cinv hsmall, memory_reach hdefrag, hwritten⟩
  refine ⟨?_, fun t hs hend => (hlimited.turns hs).met hend⟩
  obtain ⟨-, ls, hc⟩ := hlimited.cinv
  refine exists_ended workers hc.isList fun w hne => ?_
  have hget := (hc.isList w).get
  rw [(reach_other h hne).get] at hget
  exact List.head?_eq_none_iff.mp (Option.some.inj hget).symm

/-- One X in memory that has been written, and no memory allowed. -/
theorem memory_limit_met_once : ∃ s, (server Shared.plain).Reach (Counts Shared.plain [0]) s
    ∧ (∃ r, s.store.m_dataIndexes.lookup 7 = some r ∧ r.m_pBlockManager.isSome = true)
    ∧ (∃ t, (server Shared.plain).Steps (Checks 0) s t ∧ ∀ w, t.Ended 0 w)
    ∧ ∀ t, (server Shared.plain).Steps (Checks 0) s t → (∀ w, t.Ended 0 w) →
      t.store.m_memoryUsed ≤ 0 := by
  have hrun : (fresh.bind fun s => (server Shared.plain).run
      (fun s a => smallTest s a && decide (DefragOk Shared.plain s a s)
        && decide (∀ w ∈ a.worker, w ∈ [0])) s
      [put 0 7 1, .beginProcess [], .getItems [7], .processItem ⟨4096, 64⟩, .endProcess]).any
      (fun s => (s.store.m_dataIndexes.lookup 7).any (fun r => r.m_pBlockManager.isSome)
        && s.store.m_dataIndexes.entries.all fun e => !e.2.inDiskWriteQueue) = true := by
    decide +kernel
  have hok : ∀ (s : Sys) (a : Action) (t : Sys),
      (smallTest s a && decide (DefragOk Shared.plain s a s)
        && decide (∀ w ∈ a.worker, w ∈ [0])) = true → Counts Shared.plain [0] s a t := by
    intro s a t h
    rw [Bool.and_eq_true, Bool.and_eq_true] at h
    exact ⟨small_of_test s a t h.1.1, of_decide_eq_true h.1.2, of_decide_eq_true h.2⟩
  obtain ⟨s, t, hs, hsteps, ht⟩ := exists_run _ hok hrun
  rw [Bool.and_eq_true] at ht
  have hreach := (Machine.Reach.init s hs).steps hsteps
  have hwritten : t.Written := by
    intro x r hx
    have hflag := List.all_eq_true.mp ht.2 ⟨x, r⟩ (KeyMap.mem_entries.mpr hx)
    rwa [Bool.not_eq_true'] at hflag
  exact ⟨t, hreach, (Option.any_eq_true _ _).mp ht.1, memory_limit_met hreach hwritten 0⟩

end Sys

end TransDB
