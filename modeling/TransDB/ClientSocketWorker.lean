/-
The service: the store with the threads that answer its clients.

A packet that has been read from a socket goes into one of two queues, by its opcode. Each
worker takes from one of them and runs the handler of the opcode, one call at a time, so
that the calls of different workers and the steps of the storage thread come in any order.
Two requests are handed on to the storage thread: it puts the free space together itself,
and starts a thread for each report of the free space, with a copy of the map.

What is seen of a step is a packet that comes or goes, a request that a worker takes or is
done with, and a call with its answer.
-/
import TransDB.ClientSocketRead
import TransDB.ClientSocketSend
import TransDB.ClientSocketWorkerCalls
import TransDB.FreeSpaceDump
import TransDB.SystemReplies

set_option autoImplicit false

namespace TransDB

open ByteList ClientSocketWorkerTask

/-! ## The state -/

/-- What the service is built with: the missing code, the scripts, the threads. -/
structure Setup where
  sh : Shared
  ps : PacketShared
  /-- The memory behind the body of a packet. -/
  behind : List UInt8 → ℕ → UInt8
  executePythonScript : List UInt8 → Proc Call Call.Reply (List UInt8)
  eSFSDF_FULL : UInt32
  MaxParallelTasks : ℕ
  MaxParallelReadTasks : ℕ

/-- `E_TASK_QUEUE_TYPE` -/
inductive E_TQT
  | eTQT_Read
  | eTQT_Write
  deriving DecidableEq, Repr

/-- `struct ClientSocketTaskData` -/
structure ClientSocketTaskData where
  m_opcode : UInt16
  m_socketID : UInt64
  m_pData : List UInt8
  deriving DecidableEq

/-- `struct DiskWriterTask` -/
structure DiskWriterTask where
  m_socketID : UInt64
  m_eTaskType : EDT
  m_rData : List UInt8

/-- `class DumpFreeSpaceThread` -/
structure DumpFreeSpaceThread where
  m_socketID : UInt64
  m_dataFileSize : Int
  m_rData : List UInt8
  m_rFreeSpace : FreeSpaceBlockMap

/-- The store, the workers and the storage thread. -/
structure Service where
  sys : Sys
  m_pTaskDataQueue : E_TQT → List ClientSocketTaskData
  /-- The task of a worker, with what is left of its handler. -/
  workers : ℕ → Option (ClientSocketTaskData × Handler)
  m_rDiskWriteTasks : List DiskWriterTask
  /-- What is left of the tasks that `ProcessTasks` has taken. -/
  rDiskWriteTasksProcess : List DiskWriterTask
  /-- The response that `HandleDefragmentFreeSpace` has not sent yet. -/
  defragmented : Option (UInt64 × List UInt8)
  dumps : List DumpFreeSpaceThread

/-- The step of a call, if it is one of the store. -/
def ClientSocketWorkerTask.Call.action (w : ℕ) (args : CallArgs) : Call → Option Action
  | .readRecord x y pData => some (.readRecord w x y pData)
  | .readAll x pData => some (.readAll w x pData)
  | .getAllY x => some (.getAllY w x)
  | .writeData x y pRecord => some (.writeData w args.cfg args.cfgs x y pRecord)
  | .deleteData x => some (.deleteData w x)
  | .remove x => some (.remove x)
  | .deleteRecord x y => some (.deleteRecord w x y)
  | .defragmentData x => some (.defragmentData w args.cfgs x)
  | .getStats | .getFileLogContent | .readConfigFile => none

namespace Sys

variable (sh : Shared)

/-- The answer to a call of worker `w`. -/
def reply (s : Sys) (w : ℕ) (args : CallArgs) : (c : Call) → Option c.Reply
  | .readRecord x y pData => (s.store.ReadData sh (s.lru w) x y pData).map Prod.fst
  | .readAll x pData => (s.store.ReadDataAll sh (s.lru w) x pData).map Prod.fst
  | .getAllY x => (s.store.GetAllY sh (s.lru w) x).map Prod.fst
  | .writeData x y pRecord =>
    (s.store.WriteData sh args.cfg args.cfgs (s.lru w) x y pRecord).map Prod.fst
  | .deleteData _ | .remove _ | .deleteRecord _ _ | .defragmentData _ => some ()
  | .getStats | .getFileLogContent | .readConfigFile => some args.content

/-- The store after a call. -/
def afterCall (s : Sys) (w : ℕ) (args : CallArgs) (c : Call) : Option Sys :=
  match c.action w args with
  | some a => s.step sh a
  | none => some s

end Sys

/-- The steps of the storage thread in `Process`, and `DefragmentFreeSpace` by the clock. -/
def Action.ofStorageThread : Action → Bool
  | .defragmentFreeSpace _ => true
  | a => a.disk

namespace Service

/-! ## The steps -/

/-- What a thread does in one step; `w` is a worker. -/
inductive Step
  /-- A packet has been read from a socket. -/
  | receive (m_socketID : UInt64) (packet : Packet) (id : ClientSocketOut.ActivityID)
  | take (w : ℕ)
  | call (w : ℕ) (args : CallArgs)
  | finish (w : ℕ) (cfg : CompressCfg)
  | checkMemory (w : ℕ) (limit : UInt64)
  | storageThread (a : Action)
  | takeTasks
  | runTask (order : List ((ℕ × ℕ) × DREC))
  | sendDefragmented
  | sendDump (i : ℕ) (cfg : CompressCfg)

/-- What is seen of a step. -/
inductive Seen
  | received (q : E_TQT) (r : ClientSocketTaskData)
  /-- Answered by the socket itself. -/
  | replied (r : ClientSocketTaskData) (p : Packet)
  | took (w : ℕ) (r : ClientSocketTaskData)
  | called (w : ℕ) (c : Sigma Call.Reply) (e : Option (UInt64 × RecordStore.Event))
  | ended (w : ℕ) (r : ClientSocketTaskData) (p : Option Packet)
  /-- Sent for a task of the disk writer. -/
  | completed (m_socketID : UInt64) (p : Packet)

variable (E : Setup)

/-- The queue of a worker; the writers are started first. -/
def queueOf (w : ℕ) : Option E_TQT :=
  if w < E.MaxParallelTasks then some .eTQT_Write
  else if w < E.MaxParallelTasks + E.MaxParallelReadTasks then some .eTQT_Read
  else none

/-- `m_opcode < OP_NUM && m_ClientSocketWorkerTaskHandlers[m_opcode] != NULL` -/
def handler (r : ClientSocketTaskData) : Option Handler :=
  ((m_ClientSocketWorkerTaskHandlers E.sh E.ps E.behind
    E.executePythonScript)[r.m_opcode.toNat]?.join).map fun handle => handle r.m_pData

/-- The queue that `ClientSocket` puts a packet into. -/
def queuedIn (packet : Packet) : Option E_TQT :=
  match (dispatch packet).handler with
  | some .QueueWritePacket => some .eTQT_Write
  | some .QueueReadPacket => some .eTQT_Read
  | _ => none

/-- `ClientSocket::HandleGetActivityID` -/
def HandleGetActivityID (id : ClientSocketOut.ActivityID) (m_pData : List UInt8) : Packet :=
  let (token, rest) := Blman.bbuffRead E.sh m_pData 4
  let (flags, _) := Blman.bbuffRead E.sh rest 4
  ClientSocketOut.activityResponse (UInt32.ofNat (ofLE token)) (UInt32.ofNat (ofLE flags)) id

/-- `DumpFreeSpaceThread::run` -/
def dumpPacket (cfg : CompressCfg) (d : DumpFreeSpaceThread) : Packet :=
  let token := slice d.m_rData 0 4
  let flags := slice d.m_rData 4 4
  let dumpFlags := UInt32.ofNat (ofLE (slice d.m_rData 8 4))
  let pDump := d.m_rFreeSpace.GetFreeSpaceDump d.m_dataFileSize (dumpFlags = E.eSFSDF_FULL)
  sendData E.ps cfg (limit64 cfg) 22 token flags [] pDump

/-- `DiskWriter::QueueTask`, if the handler ends with one. -/
def queued (m_socketID : UInt64) : Outcome → List DiskWriterTask
  | .queueTask eTaskType rData => [⟨m_socketID, eTaskType, rData⟩]
  | _ => []

def step (s : Service) : Step → Option Service
  | .receive m_socketID packet _ =>
    match queuedIn packet with
    | some q => some { s with
        m_pTaskDataQueue := Function.update s.m_pTaskDataQueue q
          (s.m_pTaskDataQueue q ++ [⟨packet.opcode, m_socketID, packet.payload⟩]) }
    | none => some s
  | .take w =>
    match s.workers w, queueOf E w with
    | none, some q =>
      match s.m_pTaskDataQueue q with
      | r :: rest => some { s with
          m_pTaskDataQueue := Function.update s.m_pTaskDataQueue q rest
          --process task, or unknown opcode
          workers := Function.update s.workers w ((handler E r).map fun h => (r, h)) }
      | [] => none
    | _, _ => none
  | .call w args =>
    match s.workers w with
    | some (r, .call c k) => do
      let v ← s.sys.reply E.sh w args c
      let sys ← s.sys.afterCall E.sh w args c
      return { s with sys, workers := Function.update s.workers w (some (r, k v)) }
    | _ => none
  | .finish w _ =>
    match s.workers w with
    | some (_, .done .undefined) => none
    | some (r, .done o) => some { s with
        workers := Function.update s.workers w none
        m_rDiskWriteTasks := s.m_rDiskWriteTasks ++ queued r.m_socketID o }
    | _ => none
  | .checkMemory w limit =>
    match s.workers w, queueOf E w with
    | none, some _ => do
      let sys ← s.sys.step E.sh (.checkMemory w limit)
      return { s with sys }
    | _, _ => none
  | .storageThread a =>
    match a.ofStorageThread, s.rDiskWriteTasksProcess, s.defragmented with
    | true, [], none => do
      let sys ← s.sys.step E.sh a
      return { s with sys }
    | _, _, _ => none
  | .takeTasks =>
    match s.sys.disk, s.rDiskWriteTasksProcess, s.defragmented with
    | .idle, [], none => some { s with
        m_rDiskWriteTasks := []
        rDiskWriteTasksProcess := s.m_rDiskWriteTasks }
    | _, _, _ => none
  | .runTask order =>
    match s.rDiskWriteTasksProcess, s.defragmented with
    | task :: rest, none =>
      match task.m_eTaskType with
      | .edtDumpFreeSpace =>
        --copy freespace map and run in separate thread
        some { s with
          rDiskWriteTasksProcess := rest
          dumps := s.dumps ++ [⟨task.m_socketID, s.sys.store.m_dataFileSize, task.m_rData,
            s.sys.store.m_rFreeSpace⟩] }
      | .edtDefragmentFreeSpace => do
        let sys ← s.sys.step E.sh (.defragmentFreeSpace order)
        return { s with
          sys
          rDiskWriteTasksProcess := rest
          defragmented := some (task.m_socketID, task.m_rData) }
    | _, _ => none
  | .sendDefragmented =>
    match s.defragmented with
    | some _ => some { s with defragmented := none }
    | none => none
  | .sendDump i _ =>
    match s.dumps[i]? with
    | some _ => some { s with dumps := s.dumps.eraseIdx i }
    | none => none

def seen (s : Service) : Step → Option Seen
  | .receive m_socketID packet id =>
    let r : ClientSocketTaskData := ⟨packet.opcode, m_socketID, packet.payload⟩
    match queuedIn packet, (dispatch packet).handler with
    | some q, _ => some (.received q r)
    | none, some .HandleGetActivityID => some (.replied r (HandleGetActivityID E id r.m_pData))
    | none, _ => none
  | .take w => do
    let q ← queueOf E w
    let r ← (s.m_pTaskDataQueue q).head?
    return .took w r
  | .call w args =>
    match s.workers w with
    | some (_, .call c _) => do
      let v ← s.sys.reply E.sh w args c
      return .called w ⟨c, v⟩ ((c.action w args).bind (s.sys.seen E.sh))
    | _ => none
  | .finish w cfg =>
    match s.workers w with
    | some (r, .done o) => some (.ended w r (o.packet E.ps cfg))
    | _ => none
  | .sendDefragmented => s.defragmented.map fun d => .completed d.1 ⟨30, d.2⟩
  | .sendDump i cfg => (s.dumps[i]?).map fun d => .completed d.m_socketID (dumpPacket E cfg d)
  | _ => none

/-- What a step is to the store. -/
def storeStep (s : Service) : Step → Option Action
  | .call w args =>
    match s.workers w with
    | some (_, .call c _) => c.action w args
    | _ => none
  | .checkMemory w limit => some (.checkMemory w limit)
  | .storageThread a => some a
  | .runTask order =>
    match s.rDiskWriteTasksProcess.map DiskWriterTask.m_eTaskType with
    | .edtDefragmentFreeSpace :: _ => some (.defragmentFreeSpace order)
    | _ => none
  | _ => none

/-- Nothing has come yet: no task, no worker at work. -/
structure Idle (s : Service) : Prop where
  queues : ∀ q, s.m_pTaskDataQueue q = []
  workers : ∀ w, s.workers w = none
  tasks : s.m_rDiskWriteTasks = []
  process : s.rDiskWriteTasksProcess = []
  defragmented : s.defragmented = none
  dumps : s.dumps = []

/-- The service. -/
def service : Machine Service Step where
  init := Idle
  step := step E

/-! ## Runs on concrete inputs -/

/-- A service before its first packet. -/
def fresh (sys : Sys) : Service where
  sys := sys
  m_pTaskDataQueue _ := []
  workers _ := none
  m_rDiskWriteTasks := []
  rDiskWriteTasksProcess := []
  defragmented := none
  dumps := []

theorem idle_fresh (sys : Sys) : Idle (fresh sys) :=
  ⟨fun _ => rfl, fun _ => rfl, rfl, rfl, rfl, rfl⟩

/-- One worker for each queue, and packets that are not compressed. -/
def twoWorkers : Setup where
  sh := Shared.plain
  ps := PythonClient.threeShared
  behind _ _ := 0
  executePythonScript _ := .done []
  eSFSDF_FULL := 0
  MaxParallelTasks := 1
  MaxParallelReadTasks := 1

/-- An `ActivityID` that is not configured. -/
def noActivity : ClientSocketOut.ActivityID := ⟨[], by decide⟩

/-- A packet of a client, with the token 9. -/
def sent (m_socketID : UInt64) (request : Request) : Step :=
  .receive m_socketID (request.packet PythonClient.threeZlib 9) noActivity

/-- A call with the configuration of the runs above. -/
def calls (w : ℕ) : Step :=
  .call w ⟨Sys.plainCfg 1000 5, fun _ => Sys.plainCfg 1000 5, []⟩

/-- What is seen of a run of a service on empty files, if it passes a test. -/
theorem exists_served (ok : Service → Step → Service → Prop) {test : Service → Step → Bool}
    (htest : ∀ s a t, test s a = true → (service E).step s a = some t → ok s a t)
    {steps : List Step} {p : List Seen × Service → Bool}
    (h : (Sys.fresh.bind fun sys => (service E).observe (seen E) test (fresh sys) steps).any p
      = true) :
    ∃ sys es t, Sys.Started sys ∧ (service E).Shows ok (seen E) (fresh sys) es t
      ∧ p (es, t) = true := by
  obtain ⟨⟨es, t⟩, ht, hp⟩ := (Option.any_eq_true _ _).mp h
  obtain ⟨sys, hs, hrun⟩ := Option.bind_eq_some_iff.mp ht
  exact ⟨sys, es, t, Sys.started_of_fresh hs, .of_observe htest hrun, hp⟩

end Service

end TransDB
