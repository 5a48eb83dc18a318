/-
The server as a machine.

`Sys` is the store with its threads: any number of workers, each with its own
`LRUCache`, and the disk thread with its place in `Process`. An action is what one
thread does between two points where another may run: a worker function under the
accessor of its X, the `Remove` that ends a `DeleteData`, one turn of a loop of the
disk thread. `Op` are whole operations, for runs in which nothing overlaps;
`Server.run_steps` shows such a run to be one of the machine's.
-/
import TransDB.DiskWriter
import TransDB.Machine

set_option autoImplicit false

namespace TransDB

open DiskWriter

/-- Where the disk thread is. -/
inductive DiskPc
  /-- Not in `Process`. -/
  | idle
  /-- In the loop of `ProcessIndexDeleteQueue`, with what is left of `rDeleteQueue`. -/
  | deleting (rDeleteQueue : List RecordIndex)
  /-- In the loops of `Process`, with what is left of the batch, and the regions of
  `rFreeSpaceToAdd` that have not been added. -/
  | writing (items : List WriteInfo) (rFreeSpaceToAdd : List Region)

/-- The store and its threads. -/
structure Sys where
  store : Storage
  /-- The `LRUCache` of each worker. -/
  lru : ℕ → LRUCache
  disk : DiskPc
  /-- The X of the `DeleteData` calls that have not come to their `Remove`. -/
  removing : List UInt64

/-- What a thread does in one step; `w` is a worker. -/
inductive Action
  | readRecord (w : ℕ) (x y : UInt64) (pData : List UInt8)
  | readAll (w : ℕ) (x : UInt64) (pData : List UInt8)
  | getAllY (w : ℕ) (x : UInt64)
  | writeData (w : ℕ) (cfg : WriteCfg) (cfgs : ℕ → WriteCfg) (x y : UInt64) (pRecord : List UInt8)
  | deleteData (w : ℕ) (x : UInt64)
  | remove (x : UInt64)
  | deleteRecord (w : ℕ) (x y : UInt64)
  | defragmentData (w : ℕ) (cfgs : ℕ → WriteCfg) (x : UInt64)
  | checkMemory (w : ℕ) (limit : UInt64)
  /-- The disk thread enters `Process` and takes the deletion queue. -/
  | beginProcess (order : List UInt64)
  | deleteItem (IndexBlockCacheSize : ℕ)
  /-- It takes the queue. -/
  | getItems (order : List UInt64)
  | processItem (cfg : DiskCfg)
  | addFreeSpace
  | endProcess
  | defragmentFreeSpace (order : List ((ℕ × ℕ) × DREC))
  /-- The server is started again on the files it has. -/
  | restart (ReallocSize : Int) (forceStartup : Bool) (order : List ((ℕ × ℕ) × DREC))

namespace Sys

variable (sh : Shared)

/-- A worker function run by worker `w`. -/
def worker (s : Sys) (w : ℕ) (f : LRUCache → Option (Storage × LRUCache)) : Option Sys := do
  let (store, lru) ← f (s.lru w)
  return { s with store, lru := Function.update s.lru w lru }

def step (s : Sys) : Action → Option Sys
  | .readRecord w x y pData =>
    s.worker w fun lru => (s.store.ReadData sh lru x y pData).map Prod.snd
  | .readAll w x pData => s.worker w fun lru => (s.store.ReadDataAll sh lru x pData).map Prod.snd
  | .getAllY w x => s.worker w fun lru => (s.store.GetAllY sh lru x).map Prod.snd
  | .writeData w cfg cfgs x y pRecord =>
    s.worker w fun lru => (s.store.WriteData sh cfg cfgs lru x y pRecord).map Prod.snd
  | .deleteData w x => do
    let s ← s.worker w fun lru => s.store.DeleteData sh lru x
    return { s with removing := x :: s.removing }
  | .remove x =>
    if x ∈ s.removing then
      some { s with store := Remove s.store x, removing := s.removing.erase x }
    else none
  | .deleteRecord w x y => s.worker w fun lru => s.store.DeleteRecord sh lru x y
  | .defragmentData w cfgs x => s.worker w fun lru => s.store.DefragmentData sh cfgs lru x
  | .checkMemory w limit => s.worker w fun lru => s.store.CheckMemory sh limit lru
  | .beginProcess order =>
    match s.disk with
    | .idle => do
      let (rDeleteQueue, store) ← getDeleted s.store order
      return { s with store, disk := .deleting rDeleteQueue }
    | _ => none
  | .deleteItem IndexBlockCacheSize =>
    match s.disk with
    | .deleting (r :: rest) => do
      let store ← DiskWriter.deleteItem IndexBlockCacheSize s.store r
      return { s with store, disk := .deleting rest }
    | _ => none
  | .getItems order =>
    match s.disk with
    | .deleting [] => do
      let (items, store) ← DiskWriter.getItems s.store order
      return { s with store, disk := .writing items [] }
    | _ => none
  | .processItem cfg =>
    match s.disk with
    | .writing (item :: items) rFreeSpaceToAdd => do
      let (store, rFreeSpaceToAdd) ←
        DiskWriter.processItem sh cfg s.store rFreeSpaceToAdd item
      return { s with store, disk := .writing items rFreeSpaceToAdd }
    | _ => none
  | .addFreeSpace =>
    match s.disk with
    | .writing [] (r :: rest) =>
      some { s with store := s.store.addFreeSpace r, disk := .writing [] rest }
    | _ => none
  | .endProcess =>
    match s.disk with
    | .writing [] [] => some { s with disk := .idle }
    | _ => none
  | .defragmentFreeSpace order =>
    match s.disk with
    | .idle =>
      if order.Perm (IndexBlock.fileEntries 0 s.store.files.index) then
        some { s with store := DefragmentFreeSpace order s.store }
      else none
    | _ => none
  | .restart ReallocSize forceStartup order =>
    match s.disk with
    | .idle =>
      if order.Perm (IndexBlock.fileEntries 0 s.store.files.index) then do
        let store ← Storage.Init ReallocSize forceStartup order s.store.files
        return { store, lru := fun _ => LRUCache.empty, disk := .idle, removing := [] }
      else none
    | _ => none

/-- No data and no index. -/
def noFiles : Files := ⟨⟨fun _ => 0, 0⟩, []⟩

/-- A server started on empty files. -/
def Started (s : Sys) : Prop :=
  ∃ ReallocSize store, Storage.Init ReallocSize false [] noFiles = some store
    ∧ s = ⟨store, fun _ => LRUCache.empty, .idle, []⟩

/-- The server. -/
def server : Machine Sys Action where
  init := Started
  step := step sh

end Sys

/-! ## Whole operations -/

/-- An operation run from its beginning to its end. -/
inductive Op
  | readRecord (w : ℕ) (x y : UInt64) (pData : List UInt8)
  | readAll (w : ℕ) (x : UInt64) (pData : List UInt8)
  | getAllY (w : ℕ) (x : UInt64)
  | writeData (w : ℕ) (cfg : WriteCfg) (cfgs : ℕ → WriteCfg) (x y : UInt64) (pRecord : List UInt8)
  | deleteData (w : ℕ) (x : UInt64)
  | deleteRecord (w : ℕ) (x y : UInt64)
  | defragmentData (w : ℕ) (cfgs : ℕ → WriteCfg) (x : UInt64)
  | checkMemory (w : ℕ) (limit : UInt64)
  | process (args : ProcessArgs)
  | restart (ReallocSize : Int) (forceStartup : Bool) (order : List ((ℕ × ℕ) × DREC))

/-- The store and the workers between two operations. -/
structure Server where
  store : Storage
  lru : ℕ → LRUCache

namespace Server

variable (sh : Shared)

/-- The server as a machine at rest. -/
def atRest (s : Server) : Sys := ⟨s.store, s.lru, .idle, []⟩

/-- An operation run by worker `w`. -/
def worker (s : Server) (w : ℕ) (f : LRUCache → Option (Storage × LRUCache)) : Option Server := do
  let (store, lru) ← f (s.lru w)
  return { store, lru := Function.update s.lru w lru }

def run (s : Server) : Op → Option Server
  | .readRecord w x y pData =>
    s.worker w fun lru => (s.store.ReadData sh lru x y pData).map Prod.snd
  | .readAll w x pData => s.worker w fun lru => (s.store.ReadDataAll sh lru x pData).map Prod.snd
  | .getAllY w x => s.worker w fun lru => (s.store.GetAllY sh lru x).map Prod.snd
  | .writeData w cfg cfgs x y pRecord =>
    s.worker w fun lru => (s.store.WriteData sh cfg cfgs lru x y pRecord).map Prod.snd
  | .deleteData w x => do
    let s ← s.worker w fun lru => s.store.DeleteData sh lru x
    --erase from disk queue
    return { s with store := Remove s.store x }
  | .deleteRecord w x y => s.worker w fun lru => s.store.DeleteRecord sh lru x y
  | .defragmentData w cfgs x => s.worker w fun lru => s.store.DefragmentData sh cfgs lru x
  | .checkMemory w limit => s.worker w fun lru => s.store.CheckMemory sh limit lru
  | .process args => do
    let store ← Process sh args s.store
    return { s with store }
  | .restart ReallocSize forceStartup order =>
    if order.Perm (IndexBlock.fileEntries 0 s.store.files.index) then do
      let store ← Storage.Init ReallocSize forceStartup order s.store.files
      return { store, lru := fun _ => LRUCache.empty }
    else none

/-- The server, one operation at a time. -/
def machine : Machine Server Op where
  init s := Sys.Started s.atRest
  step := run sh

end Server

end TransDB
