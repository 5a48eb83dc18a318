/-
Operations run one after another.

Each operation of `Server` is a stretch of the machine's steps that begins and ends with
the disk thread idle and no deletion under way: what a worker does is one step, or two
for a `DeleteData` with its `Remove`, and a flush is a run of the disk thread. What is
proved of the steps holds of the operations. Nothing comes between a deletion and its
`Remove`, so the `Remove` meets no X.
-/
import TransDB.SystemEvict
import TransDB.SystemProcess

set_option autoImplicit false

namespace TransDB

open DiskWriter Storage

/-- The X of a `DeleteData`. -/
def Action.deletes : Action → Option UInt64
  | .deleteData _ x => some x
  | _ => none

theorem Action.disk_quiet {a : Action} (h : a.disk = true) :
    a.plain = true ∧ a.removes = none ∧ a.writes = none ∧ a.deletes = none := by
  cases a with
  | beginProcess order => exact ⟨rfl, rfl, rfl, rfl⟩
  | deleteItem cacheSize => exact ⟨rfl, rfl, rfl, rfl⟩
  | getItems order => exact ⟨rfl, rfl, rfl, rfl⟩
  | processItem cfg => exact ⟨rfl, rfl, rfl, rfl⟩
  | addFreeSpace => exact ⟨rfl, rfl, rfl, rfl⟩
  | endProcess => exact ⟨rfl, rfl, rfl, rfl⟩
  | _ => cases h

theorem Sys.removeOk_of_none {s : Sys} {a : Action} (h : a.removes = none) : s.RemoveOk a := by
  intro x hx
  rw [h] at hx
  cases hx

namespace Op

/-- The operation does not start the server again. -/
def plain : Op → Bool
  | .restart _ _ _ => false
  | _ => true

/-- The worker's step that an operation begins with. -/
def action : Op → Option Action
  | .readRecord w x y pData => some (.readRecord w x y pData)
  | .readAll w x pData => some (.readAll w x pData)
  | .getAllY w x => some (.getAllY w x)
  | .writeData w cfg cfgs x y pRecord => some (.writeData w cfg cfgs x y pRecord)
  | .deleteData w x => some (.deleteData w x)
  | .deleteRecord w x y => some (.deleteRecord w x y)
  | .defragmentData w cfgs x => some (.defragmentData w cfgs x)
  | .checkMemory w limit => some (.checkMemory w limit)
  | .process _ => none
  | .restart _ _ _ => none

end Op

namespace Server

variable {sh : Shared}

theorem worker_atRest (s : Server) (w : ℕ) (f : LRUCache → Option (Storage × LRUCache)) :
    s.atRest.worker w f = (s.worker w f).map atRest := by
  have hlru : s.atRest.lru w = s.lru w := rfl
  rw [Sys.worker, worker, hlru]
  cases f (s.lru w) with
  | none => rfl
  | some out => rfl

/-- The steps of an operation: the one it begins with, and others that neither write a
record nor delete an X. -/
def OpStep (s0 : Server) (op : Op) (s : Sys) (a : Action) (_ : Sys) : Prop :=
  a.plain = true ∧ s.RemoveOk a
    ∧ ((a.writes = none ∧ a.deletes = none) ∨ (s = s0.atRest ∧ op.action = some a))

theorem opStep_first {s0 : Server} {op : Op} {a : Action} {t : Sys} (hop : op.action = some a) :
    OpStep s0 op s0.atRest a t := by
  have hplain : a.plain = true ∧ a.removes = none := by
    cases op with
    | process args => cases hop
    | restart ReallocSize forceStartup order => cases hop
    | _ =>
      cases hop
      exact ⟨rfl, rfl⟩
  exact ⟨hplain.1, Sys.removeOk_of_none hplain.2, Or.inr ⟨rfl, hop⟩⟩

theorem opStep_disk {s0 : Server} {op : Op} {s : Sys} {a : Action} {t : Sys}
    (ha : a.disk = true) : OpStep s0 op s a t := by
  obtain ⟨hplain, hremove, hwrite, hdelete⟩ := Action.disk_quiet ha
  exact ⟨hplain, Sys.removeOk_of_none hremove, Or.inl ⟨hwrite, hdelete⟩⟩

/-- A deletion and its `Remove`. -/
theorem deleteData_steps {s t : Server} {w : ℕ} {x : UInt64}
    (h : s.run sh (.deleteData w x) = some t) :
    (Sys.server sh).Steps (OpStep s (.deleteData w x)) s.atRest t.atRest := by
  obtain ⟨u, hu, h⟩ := Option.bind_eq_some_iff.mp h
  cases h
  obtain ⟨⟨store, lru⟩, hf, hu⟩ := Option.bind_eq_some_iff.mp hu
  cases hu
  have hdel : s.atRest.worker w (fun lru => s.store.DeleteData sh lru x)
      = some ⟨store, Function.update s.lru w lru, .idle, []⟩ := by
    have hdata : s.store.DeleteData sh (s.lru w) x = some (store, lru) := hf
    rw [worker_atRest, worker, hdata]
    rfl
  have hgone : store.m_dataIndexes.lookup x = none := by
    rcases DeleteData_cases hf with ⟨hnone, rfl⟩ | ⟨r, -, rfl⟩
    · exact hnone
    · exact AList.lookup_erase _ _
  refine .head _ ⟨store, Function.update s.lru w lru, .idle, [x]⟩ _ (.deleteData w x)
    (opStep_first rfl) ?_ (.single (a := .remove x) ⟨rfl, ?_, Or.inl ⟨rfl, rfl⟩⟩ ?_)
  · show (do
      let s' ← s.atRest.worker w fun lru => s.store.DeleteData sh lru x
      return ({ s' with removing := x :: s'.removing } : Sys)) = _
    rw [hdel]
    rfl
  · intro y hy r hr
    obtain rfl : x = y := Option.some.inj hy
    rw [hgone] at hr
    cases hr
  · show (if x ∈ [x] then _ else _) = _
    rw [if_pos (List.mem_singleton_self x)]
    show some _ = some _
    rw [List.erase_cons_head]
    rfl

theorem action_step {s t : Server} {op : Op} {a : Action} (ha : op.action = some a)
    (hdel : a.deletes = none) (h : s.run sh op = some t) :
    (Sys.server sh).step s.atRest a = some t.atRest := by
  have hmap : ∀ (w : ℕ) (f : LRUCache → Option (Storage × LRUCache)), s.worker w f = some t →
      s.atRest.worker w f = some t.atRest := by
    intro w f hf
    rw [worker_atRest, hf]
    rfl
  cases op with
  | deleteData w x =>
    cases ha
    cases hdel
  | process args => cases ha
  | restart ReallocSize forceStartup order => cases ha
  | _ =>
    cases ha
    rw [run] at h
    exact hmap _ _ h

theorem process_run {s t : Server} {args : ProcessArgs} (h : s.run sh (.process args) = some t) :
    Process sh args s.store = some t.store ∧ t.lru = s.lru := by
  obtain ⟨store, hp, h⟩ := Option.bind_eq_some_iff.mp h
  cases h
  exact ⟨hp, rfl⟩

/-- An operation is a stretch of steps. -/
theorem run_steps {s t : Server} {op : Op} (hplain : op.plain = true)
    (h : s.run sh op = some t) : (Sys.server sh).Steps (OpStep s op) s.atRest t.atRest := by
  cases op with
  | deleteData w x => exact deleteData_steps h
  | process args =>
    obtain ⟨hp, hlru⟩ := process_run h
    have hsteps := Sys.process_steps (s := s.atRest) rfl hp
    have hend : (Sys.server sh).step ⟨t.store, s.lru, .writing [] [], []⟩ .endProcess
        = some t.atRest := by
      rw [atRest, hlru]
      rfl
    exact (hsteps.mono fun _ _ _ ha => opStep_disk ha).trans (.single (opStep_disk rfl) hend)
  | restart ReallocSize forceStartup order => cases hplain
  | _ => exact .single (opStep_first rfl) (action_step rfl rfl h)

/-! ## Runs on concrete inputs -/

/-- A server on empty files. -/
def fresh : Option Server :=
  (Storage.Init 8192 false [] Sys.noFiles).map fun store => ⟨store, fun _ => LRUCache.empty⟩

theorem started_of_fresh {s : Server} (h : fresh = some s) : (machine sh).init s := by
  obtain ⟨store, hinit, rfl⟩ := Option.map_eq_some_iff.mp h
  exact ⟨8192, store, hinit, rfl⟩

/-- The state a run from empty files ends in, if it passes a test there. -/
theorem exists_run {ok : Server → Op → Server → Prop} {test : Server → Op → Bool}
    (htest : ∀ s op t, test s op = true → (machine sh).step s op = some t → ok s op t)
    {ops : List Op} {p : Server → Bool}
    (h : (fresh.bind fun s => (machine sh).run test s ops).any p = true) :
    ∃ s, (machine sh).Reach ok s ∧ p s = true := by
  obtain ⟨t, ht, hp⟩ := Option.any_eq_true .. |>.mp h
  obtain ⟨s, hs, hrun⟩ := Option.bind_eq_some_iff.mp ht
  have hreach := (Machine.Reach.init s (started_of_fresh hs)).steps
    (Machine.Steps.of_run htest hrun)
  exact ⟨t, hreach, hp⟩

end Server

end TransDB
