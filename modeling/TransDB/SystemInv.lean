/-
No two owners of one byte of the data file.

`Move` is the inversion of the step of the server: a worker does some effects, and
the disk thread one of its parts. The invariant of the store is kept by each, from
the start on empty files, so it holds in any interleaving. The index file stays
below 2^20 blocks, since the position of a block in it is a `uint32`.
-/
import TransDB.StorageInit
import TransDB.System

set_option autoImplicit false

namespace TransDB

open DiskWriter Storage

namespace DiskPc

/-- The entries the disk thread has taken from the deletion queue. -/
def deleted : DiskPc → List RecordIndex
  | .deleting rDeleteQueue => rDeleteQueue
  | _ => []

/-- What is left of the batch. -/
def items : DiskPc → List WriteInfo
  | .writing items _ => items
  | _ => []

/-- `rFreeSpaceToAdd` -/
def toAdd : DiskPc → List Region
  | .writing _ rFreeSpaceToAdd => rFreeSpaceToAdd
  | _ => []

end DiskPc

/-- The action is one of the disk thread in `Process`. -/
def Action.disk : Action → Bool
  | .beginProcess _ => true
  | .deleteItem _ => true
  | .getItems _ => true
  | .processItem _ => true
  | .addFreeSpace => true
  | .endProcess => true
  | _ => false

namespace Sys

variable {sh : Shared}

/-- The edits an action can make: of which X, and of the block manager it finds. -/
inductive Edits (sh : Shared) (s : Sys) : Action → UInt64 → Blman → Edit → Prop
  | write (w : ℕ) (cfg : WriteCfg) (cfgs : ℕ → WriteCfg) (x y : UInt64) (pRecord : List UInt8)
    (m : Blman) (status : WriteStatus) (e : Edit) (hm : s.store.managerOf sh x = some m)
    (he : Edit.write sh cfg cfgs y pRecord m = some (status, e)) :
    Edits sh s (.writeData w cfg cfgs x y pRecord) x m e
  | delete (w : ℕ) (x y : UInt64) (m : Blman) (e : Edit) (hm : s.store.managerOf sh x = some m)
    (he : Edit.delete sh y m = some e) : Edits sh s (.deleteRecord w x y) x m e
  | defragment (w : ℕ) (cfgs : ℕ → WriteCfg) (x : UInt64) (m : Blman) (e : Edit)
    (hm : s.store.managerOf sh x = some m) (he : Edit.defragment sh cfgs m = some e) :
    Edits sh s (.defragmentData w cfgs x) x m e

/-- What a worker that takes an action may do. -/
def allowed (sh : Shared) (s : Sys) (a : Action) : Allowed where
  edit := s.Edits sh a
  delete x := ∃ w, a = .deleteData w x

/-- The steps of the server. -/
inductive Move (sh : Shared) (s : Sys) (a : Action) : Sys → Prop
  | worker (store : Storage) (lru : ℕ → LRUCache) (removing : List UInt64)
    (he : Effects sh (s.allowed sh a) s.store store)
    (hr : removing = s.removing ∨ ∃ w x, a = .deleteData w x ∧ removing = x :: s.removing)
    (ha : a.disk = false) : Move sh s a ⟨store, lru, s.disk, removing⟩
  | remove (x : UInt64) (ha : a = .remove x) (hx : x ∈ s.removing) :
    Move sh s a ⟨Remove s.store x, s.lru, s.disk, s.removing.erase x⟩
  | beginProcess (order : List UInt64) (rDeleteQueue : List RecordIndex) (store : Storage)
    (hd : s.disk = .idle) (h : getDeleted s.store order = some (rDeleteQueue, store)) :
    Move sh s a ⟨store, s.lru, .deleting rDeleteQueue, s.removing⟩
  | deleteItem (cacheSize : ℕ) (r : RecordIndex) (rest : List RecordIndex) (store : Storage)
    (hd : s.disk = .deleting (r :: rest))
    (h : DiskWriter.deleteItem cacheSize s.store r = some store) :
    Move sh s a ⟨store, s.lru, .deleting rest, s.removing⟩
  | getItems (order : List UInt64) (items : List WriteInfo) (store : Storage)
    (hd : s.disk = .deleting []) (h : DiskWriter.getItems s.store order = some (items, store)) :
    Move sh s a ⟨store, s.lru, .writing items [], s.removing⟩
  | processItem (cfg : DiskCfg) (item : WriteInfo) (items : List WriteInfo) (toAdd toAdd' : List Region)
    (store : Storage) (hd : s.disk = .writing (item :: items) toAdd)
    (h : DiskWriter.processItem sh cfg s.store toAdd item = some (store, toAdd')) :
    Move sh s a ⟨store, s.lru, .writing items toAdd', s.removing⟩
  | addFreeSpace (r : Region) (rest : List Region) (hd : s.disk = .writing [] (r :: rest)) :
    Move sh s a ⟨s.store.addFreeSpace r, s.lru, .writing [] rest, s.removing⟩
  | endProcess (hd : s.disk = .writing [] []) : Move sh s a ⟨s.store, s.lru, .idle, s.removing⟩
  | defragmentFreeSpace (order : List ((ℕ × ℕ) × DREC)) (ha : a = .defragmentFreeSpace order)
    (hd : s.disk = .idle) (horder : order.Perm (IndexBlock.fileEntries 0 s.store.files.index)) :
    Move sh s a ⟨DefragmentFreeSpace order s.store, s.lru, s.disk, s.removing⟩
  | restart (ReallocSize : Int) (forceStartup : Bool) (order : List ((ℕ × ℕ) × DREC))
    (store : Storage) (ha : a = .restart ReallocSize forceStartup order) (hd : s.disk = .idle)
    (horder : order.Perm (IndexBlock.fileEntries 0 s.store.files.index))
    (h : Storage.Init ReallocSize forceStartup order s.store.files = some store) :
    Move sh s a ⟨store, fun _ => LRUCache.empty, .idle, []⟩

theorem worker_some {s t : Sys} {w : ℕ} {f : LRUCache → Option (Storage × LRUCache)}
    (h : s.worker w f = some t) :
    ∃ store lru, f (s.lru w) = some (store, lru)
      ∧ t = ⟨store, Function.update s.lru w lru, s.disk, s.removing⟩ := by
  obtain ⟨⟨store, lru⟩, hf, h⟩ := Option.bind_eq_some_iff.mp h
  cases h
  exact ⟨store, lru, hf, rfl⟩

theorem move_worker {s t : Sys} {a : Action} {w : ℕ}
    {f : LRUCache → Option (Storage × LRUCache)} (ha : a.disk = false) (h : s.worker w f = some t)
    (he : ∀ store lru, f (s.lru w) = some (store, lru) →
      Effects sh (s.allowed sh a) s.store store) : Move sh s a t := by
  obtain ⟨store, lru, hf, rfl⟩ := worker_some h
  exact .worker store _ _ (he store lru hf) (Or.inl rfl) ha

/-- A restart takes place between two runs of `Process`. -/
theorem step_restart {s t : Sys} {ReallocSize : Int} {forceStartup : Bool}
    {order : List ((ℕ × ℕ) × DREC)}
    (h : s.step sh (.restart ReallocSize forceStartup order) = some t) :
    s.disk = .idle ∧ order.Perm (IndexBlock.fileEntries 0 s.store.files.index)
      ∧ ∃ store, Storage.Init ReallocSize forceStartup order s.store.files = some store
        ∧ t = ⟨store, fun _ => LRUCache.empty, .idle, []⟩ := by
  rw [step] at h
  cases hd : s.disk with
  | idle =>
    rw [hd] at h
    dsimp only at h
    by_cases horder : order.Perm (IndexBlock.fileEntries 0 s.store.files.index)
    · rw [if_pos horder] at h
      obtain ⟨store, hi, h⟩ := Option.bind_eq_some_iff.mp h
      cases h
      exact ⟨rfl, horder, store, hi, rfl⟩
    · rw [if_neg horder] at h
      cases h
  | deleting rs =>
    rw [hd] at h
    cases h
  | writing items toAdd =>
    rw [hd] at h
    cases h

/-- So does a `DefragmentFreeSpace`. -/
theorem step_defragmentFreeSpace {s t : Sys} {order : List ((ℕ × ℕ) × DREC)}
    (h : s.step sh (.defragmentFreeSpace order) = some t) :
    s.disk = .idle ∧ order.Perm (IndexBlock.fileEntries 0 s.store.files.index)
      ∧ t = ⟨DefragmentFreeSpace order s.store, s.lru, s.disk, s.removing⟩ := by
  rw [step] at h
  cases hd : s.disk with
  | idle =>
    rw [hd] at h
    dsimp only at h
    by_cases horder : order.Perm (IndexBlock.fileEntries 0 s.store.files.index)
    · rw [if_pos horder] at h
      cases h
      exact ⟨rfl, horder, rfl⟩
    · rw [if_neg horder] at h
      cases h
  | deleting rs =>
    rw [hd] at h
    cases h
  | writing items toAdd =>
    rw [hd] at h
    cases h

/-- Every step is a move. -/
theorem step_move {s t : Sys} {a : Action} (h : s.step sh a = some t) : Move sh s a t := by
  cases a with
  | readRecord w x y pData =>
    rw [step] at h
    refine move_worker rfl h fun store lru hf => ?_
    obtain ⟨⟨out, store', lru'⟩, hr, heq⟩ := Option.map_eq_some_iff.mp hf
    cases heq
    exact withBlockManager_effects hr
  | readAll w x pData =>
    rw [step] at h
    refine move_worker rfl h fun store lru hf => ?_
    obtain ⟨⟨out, store', lru'⟩, hr, heq⟩ := Option.map_eq_some_iff.mp hf
    cases heq
    exact withBlockManager_effects hr
  | getAllY w x =>
    rw [step] at h
    refine move_worker rfl h fun store lru hf => ?_
    obtain ⟨⟨out, store', lru'⟩, hr, heq⟩ := Option.map_eq_some_iff.mp hf
    cases heq
    exact withBlockManager_effects hr
  | writeData w cfg cfgs x y pRecord =>
    rw [step] at h
    refine move_worker rfl h fun store lru hf => ?_
    obtain ⟨⟨status, store', lru'⟩, hw, heq⟩ := Option.map_eq_some_iff.mp hf
    cases heq
    exact WriteData_effects hw fun m e hm he => .write w cfg cfgs x y pRecord m status e hm he
  | deleteData w x =>
    obtain ⟨s', hw, h⟩ := Option.bind_eq_some_iff.mp h
    cases h
    obtain ⟨store, lru, hd, rfl⟩ := worker_some hw
    exact .worker store _ _ (DeleteData_effects hd ⟨w, rfl⟩) (Or.inr ⟨w, x, rfl, rfl⟩) rfl
  | remove x =>
    rw [step] at h
    by_cases hx : x ∈ s.removing
    · rw [if_pos hx] at h
      cases h
      exact .remove x rfl hx
    · rw [if_neg hx] at h
      cases h
  | deleteRecord w x y =>
    rw [step] at h
    refine move_worker rfl h fun store lru hf => ?_
    exact DeleteRecord_effects hf fun m e hm he => .delete w x y m e hm he
  | defragmentData w cfgs x =>
    rw [step] at h
    refine move_worker rfl h fun store lru hf => ?_
    exact DefragmentData_effects hf fun m e hm he => .defragment w cfgs x m e hm he
  | checkMemory w limit =>
    rw [step] at h
    exact move_worker rfl h fun store lru hf => CheckMemory_effects hf
  | beginProcess order =>
    rw [step] at h
    cases hd : s.disk with
    | idle =>
      rw [hd] at h
      obtain ⟨⟨rs, store⟩, hg, h⟩ := Option.bind_eq_some_iff.mp h
      cases h
      exact .beginProcess order rs store hd hg
    | deleting rs =>
      rw [hd] at h
      cases h
    | writing items toAdd =>
      rw [hd] at h
      cases h
  | deleteItem cacheSize =>
    rw [step] at h
    cases hd : s.disk with
    | idle =>
      rw [hd] at h
      cases h
    | deleting rs =>
      rw [hd] at h
      cases rs with
      | nil => cases h
      | cons r rest =>
        obtain ⟨store, hi, h⟩ := Option.bind_eq_some_iff.mp h
        cases h
        exact .deleteItem cacheSize r rest store hd hi
    | writing items toAdd =>
      rw [hd] at h
      cases h
  | getItems order =>
    rw [step] at h
    cases hd : s.disk with
    | idle =>
      rw [hd] at h
      cases h
    | deleting rs =>
      rw [hd] at h
      cases rs with
      | nil =>
        obtain ⟨⟨items, store⟩, hg, h⟩ := Option.bind_eq_some_iff.mp h
        cases h
        exact .getItems order items store hd hg
      | cons r rest => cases h
    | writing items toAdd =>
      rw [hd] at h
      cases h
  | processItem cfg =>
    rw [step] at h
    cases hd : s.disk with
    | idle =>
      rw [hd] at h
      cases h
    | deleting rs =>
      rw [hd] at h
      cases h
    | writing items toAdd =>
      rw [hd] at h
      cases items with
      | nil => cases h
      | cons item items =>
        obtain ⟨⟨store, toAdd'⟩, hp, h⟩ := Option.bind_eq_some_iff.mp h
        cases h
        exact .processItem cfg item items toAdd toAdd' store hd hp
  | addFreeSpace =>
    rw [step] at h
    cases hd : s.disk with
    | idle =>
      rw [hd] at h
      cases h
    | deleting rs =>
      rw [hd] at h
      cases h
    | writing items toAdd =>
      rw [hd] at h
      cases items with
      | nil =>
        cases toAdd with
        | nil => cases h
        | cons r rest =>
          cases h
          exact .addFreeSpace r rest hd
      | cons item items => cases h
  | endProcess =>
    rw [step] at h
    cases hd : s.disk with
    | idle =>
      rw [hd] at h
      cases h
    | deleting rs =>
      rw [hd] at h
      cases h
    | writing items toAdd =>
      rw [hd] at h
      cases items with
      | nil =>
        cases toAdd with
        | nil =>
          cases h
          exact .endProcess hd
        | cons r rest => cases h
      | cons item items => cases h
  | defragmentFreeSpace order =>
    obtain ⟨hd, horder, rfl⟩ := step_defragmentFreeSpace h
    exact .defragmentFreeSpace order rfl hd horder
  | restart ReallocSize forceStartup order =>
    obtain ⟨hd, horder, store, hi, rfl⟩ := step_restart h
    exact .restart ReallocSize forceStartup order store rfl hd horder hi

/-! ## The invariant -/

/-- The invariant of the store, with what the disk thread holds. -/
def Inv (sh : Shared) (s : Sys) (lost : List ((ℕ × ℕ) × Region)) : Prop :=
  StorageInv sh s.store s.disk.deleted s.disk.toAdd lost

/-- The index file is below 2^20 blocks before a step. -/
def Small (s : Sys) (_ : Action) (_ : Sys) : Prop := s.store.files.index.length < 2 ^ 20

theorem getItems_cases {st st' : Storage} {order : List UInt64} {items : List WriteInfo}
    (h : DiskWriter.getItems st order = some (items, st')) :
    order.Perm st.m_pQueue.keys ∧ items = order.filterMap st.m_pQueue.lookup
      ∧ st' = { st with m_pQueue := ∅ } := by
  rw [DiskWriter.getItems] at h
  split at h
  · rename_i hp
    cases h
    exact ⟨hp.1, rfl, rfl⟩
  · cases h

/-- Only the queue of writes has changed. -/
theorem Inv.queue {st : Storage} {deleting : List RecordIndex} {toAdd : List Region}
    {lost : List ((ℕ × ℕ) × Region)} (h : StorageInv sh st deleting toAdd lost)
    (q : AList fun _ : UInt64 => WriteInfo) :
    StorageInv sh { st with m_pQueue := q } deleting toAdd lost :=
  ⟨h.data.congr rfl rfl rfl rfl rfl, ⟨h.index.index, h.index.claims, h.index.live, h.index.gone,
    h.index.taken, h.index.intact⟩⟩

theorem Inv.started {s : Sys} (h : Started s) : s.Inv sh [] := by
  obtain ⟨ReallocSize, store, hinit, rfl⟩ := h
  obtain ⟨files', log, rfl, hf, hindex, -⟩ :=
    Init_cases (FilesOk.empty sh) (List.Perm.refl _) hinit
  have horder : ([] : List ((ℕ × ℕ) × DREC)).Perm (IndexBlock.fileEntries 0 files'.index) := by
    rw [hindex]
    exact List.Perm.refl _
  obtain ⟨lost, hinv⟩ := startOn_inv hf horder log
  have hnil : lost = [] := by
    have hclaims := hinv.index.claims
    have hempty : (startOn [] files' log).files.index = [] := hindex
    rw [hempty] at hclaims
    have happ := List.nil_perm.mp hclaims
    exact (List.append_eq_nil_iff.mp happ).2
  rw [← hnil]
  exact hinv

/-- An effect, with what it loses. -/
theorem Inv.effect {allowed : Allowed} {st st' : Storage} {deleting : List RecordIndex}
    {toAdd : List Region} {lost : List ((ℕ × ℕ) × Region)}
    (h : StorageInv sh st deleting toAdd lost) (he : Effect sh allowed st st') :
    ∃ lost', StorageInv sh st' deleting toAdd lost' := by
  rcases h.effect he with ⟨-, h'⟩ | ⟨x, r, -, -, -, h'⟩
  · exact ⟨lost, h'⟩
  · exact ⟨_, h'⟩

theorem Inv.effects {allowed : Allowed} {st st' : Storage} {deleting : List RecordIndex}
    {toAdd : List Region} {lost : List ((ℕ × ℕ) × Region)}
    (h : StorageInv sh st deleting toAdd lost) (he : Effects sh allowed st st') :
    ∃ lost', StorageInv sh st' deleting toAdd lost' := by
  refine he.invariant (fun st => ∃ lost, StorageInv sh st deleting toAdd lost) ?_ ⟨lost, h⟩
  rintro st1 st2 ⟨lost1, h1⟩ he1
  exact Inv.effect h1 he1

theorem Inv.move {s t : Sys} {a : Action} {lost : List ((ℕ × ℕ) × Region)} (h : s.Inv sh lost)
    (hsmall : s.store.files.index.length < 2 ^ 20) (hm : Move sh s a t) :
    ∃ lost', t.Inv sh lost' := by
  cases hm with
  | worker store lru removing he hr => exact Inv.effects h he
  | remove x ha hx => exact ⟨lost, Inv.queue h _⟩
  | beginProcess order rs store hd hg =>
    rw [Inv, hd] at h
    exact ⟨lost, StorageInv.getDeleted h hg⟩
  | deleteItem cacheSize r rest store hd hi =>
    rw [Inv, hd] at h
    obtain ⟨index, file, iw, store', hi', -, hinv, -⟩ := StorageInv.deleteItem h cacheSize
    rw [hi] at hi'
    cases hi'
    exact ⟨lost, hinv⟩
  | getItems order items store hd hg =>
    rw [Inv, hd] at h
    obtain ⟨-, -, rfl⟩ := getItems_cases hg
    exact ⟨lost, Inv.queue h _⟩
  | processItem cfg item items toAdd toAdd' store hd hp =>
    rw [Inv, hd] at h
    have h' : StorageInv sh s.store [] toAdd lost := h
    rcases h'.data.processItem_cases hp with
      ⟨-, rfl, rfl⟩ | ⟨r, m, r', ws, size, free, p, index, file, log, hi, rfl⟩
    · exact ⟨lost, h'⟩
    · exact ⟨lost, (h'.itemDone hsmall hi).1⟩
  | addFreeSpace r rest hd =>
    rw [Inv, hd] at h
    exact ⟨lost, StorageInv.addFreeSpace h⟩
  | endProcess hd =>
    rw [Inv, hd] at h
    exact ⟨lost, h⟩
  | defragmentFreeSpace order ha hd horder =>
    rw [Inv, hd] at h
    refine ⟨lost, ?_⟩
    rw [Inv, hd]
    exact StorageInv.defragmentFreeSpace h horder
  | restart ReallocSize forceStartup order store ha hd horder hi =>
    obtain ⟨files', log, rfl, hf, hindex, -⟩ := Init_cases (StorageInv.filesOk h) horder hi
    rw [← hindex] at horder
    exact startOn_inv hf horder log

/-- The invariant holds in every state the server can reach. -/
theorem reach_inv {s : Sys} (h : (server sh).Reach Small s) : ∃ lost, s.Inv sh lost := by
  refine h.invariant (fun s => ∃ lost, s.Inv sh lost) (fun s hs => ⟨[], Inv.started hs⟩) ?_
  rintro s a t ⟨lost, hinv⟩ hsmall hstep
  exact hinv.move hsmall (step_move hstep)

/-! ## Runs on concrete inputs -/

/-- A server on empty files. -/
def fresh : Option Sys :=
  (Storage.Init 8192 false [] noFiles).map fun store => ⟨store, fun _ => LRUCache.empty, .idle, []⟩

theorem started_of_fresh {s : Sys} (h : fresh = some s) : Started s := by
  obtain ⟨store, hinit, rfl⟩ := Option.map_eq_some_iff.mp h
  exact ⟨8192, store, hinit, rfl⟩

/-- The state a run from empty files ends in, if it passes a test there. -/
theorem exists_run (M : Machine Sys Action) {ok : Sys → Action → Sys → Prop}
    {test : Sys → Action → Bool} (htest : ∀ s a t, test s a = true → ok s a t)
    {actions : List Action} {p : Sys → Bool}
    (h : (fresh.bind fun s => M.run test s actions).any p = true) :
    ∃ s t, Started s ∧ M.Steps ok s t ∧ p t = true := by
  rw [Option.any_eq_true] at h
  obtain ⟨t, ht, hp⟩ := h
  obtain ⟨s, hs, hrun⟩ := Option.bind_eq_some_iff.mp ht
  exact ⟨s, t, started_of_fresh hs, Machine.Steps.of_run (fun s a t h _ => htest s a t h) hrun, hp⟩

/-- The test of `Small` on a run. -/
def smallTest (s : Sys) (_ : Action) : Bool := decide (s.store.files.index.length < 2 ^ 20)

theorem small_of_test (s : Sys) (a : Action) (t : Sys) (h : smallTest s a = true) : Small s a t :=
  of_decide_eq_true (p := s.store.files.index.length < 2 ^ 20) h

/-- The disk thread is not in `Process`. -/
def idle (s : Sys) : Bool :=
  match s.disk with
  | .idle => true
  | _ => false

theorem disk_of_idle {s : Sys} (h : s.idle = true) : s.disk = .idle := by
  rw [idle] at h
  split at h
  · assumption
  · cases h

/-- The configuration of the runs below: a record limit, and no compression. -/
def plainCfg (RecordLimit : Int) (DefragAfterRecordDelete : Int) : WriteCfg :=
  ⟨256, 5, true, fun _ => RecordLimit, DefragAfterRecordDelete⟩

/-- The write of a small record, with a limit that is not reached. -/
def put (w : ℕ) (x y : UInt64) : Action :=
  .writeData w (plainCfg 1000 5) (fun _ => plainCfg 1000 5) x y [1, 2, 3]

/-! ## Ownership -/

/-- The regions of the data file that belong to someone: the free ones, those that
wait in `rFreeSpaceToAdd`, those of the X in the main index, and those of the
entries in the deletion queue, or already taken from it. -/
def regions (s : Sys) : List Region :=
  FreeSpaceBlockMap.regions s.store.m_rFreeSpace ++ s.disk.toAdd
    ++ KeyMap.collect (fun _ => usedRegion) s.store.m_dataIndexes
    ++ (KeyMap.collect (fun _ => usedRegion) s.store.m_pRIDelQueue
      ++ s.disk.deleted.flatMap usedRegion)

/-- In every state the server can reach, with any interleaving of the workers and the
disk thread, the regions do not overlap and lie in the data file. -/
theorem no_two_owners {s : Sys} (h : (server sh).Reach Small s) :
    s.regions.Pairwise Region.Apart
      ∧ ∀ r ∈ s.regions, 0 ≤ r.pos ∧ r.stop ≤ s.store.m_dataFileSize := by
  obtain ⟨lost, hinv⟩ := reach_inv h
  have ht := hinv.data.tiles
  have hsplit : FreeSpaceBlockMap.regions s.store.m_rFreeSpace
      ++ (s.disk.toAdd ++ (held usedRegion s.store s.disk.deleted ++ lost.map Prod.snd))
      = s.regions ++ lost.map Prod.snd := by
    rw [regions, held, queued]
    simp only [List.append_assoc]
  rw [hsplit] at ht
  refine ⟨(List.pairwise_append.mp ht.apart).1, fun r hr => ?_⟩
  exact ht.inside r (List.mem_append_left _ hr)

/-- One X written by a worker and by the disk thread. -/
theorem no_two_owners_written : ∃ s, (server Shared.plain).Reach Small s
    ∧ 7 ∈ s.store.m_dataIndexes ∧ s.regions.Pairwise Region.Apart
    ∧ ∀ r ∈ s.regions, 0 ≤ r.pos ∧ r.stop ≤ s.store.m_dataFileSize := by
  have hrun : (fresh.bind fun s => (server Shared.plain).run smallTest s
      [put 0 7 1, .beginProcess [], .getItems [7], .processItem ⟨4096, 64⟩, .endProcess]).any
      (fun s => decide (7 ∈ s.store.m_dataIndexes)) = true := by
    decide +kernel
  obtain ⟨s, t, hs, hsteps, ht⟩ := exists_run _ small_of_test hrun
  have hreach := (Machine.Reach.init s hs).steps hsteps
  exact ⟨t, hreach, of_decide_eq_true ht, no_two_owners hreach⟩

end Sys

end TransDB
