/-
Every request is answered once.

A request is in one place at a time: in a queue, with a worker, among the tasks of the disk
writer, or with a thread that dumps the free space. What is due to the clients can be
counted over these places (`due`), and each step keeps the count: what a packet opens, and
what a response settles (`due_moved`). So over any run, the responses that were sent and
those still due are those that the requests ask for, as multisets (`answered_once`). The
queues are first in, first out, and each worker finishes a request before it takes another.
-/
import TransDB.ClientSocketWorker
import Mathlib.Algebra.BigOperators.Group.Finset.Basic
import Mathlib.Algebra.Order.Group.Multiset
import Mathlib.Tactic.Abel
import Mathlib.Tactic.IntervalCases

set_option autoImplicit false

namespace TransDB

open ByteList ClientSocketWorkerTask

namespace Service

variable (E : Setup)

/-! ## What a step does -/

/-- What a step does, what it is to the store, and what is seen of it. -/
inductive Moved (s : Service) : Option Action → Service → Option Seen → Prop
  | received (q : E_TQT) (r : ClientSocketTaskData) (hr : (handler E r).isSome) :
    Moved s none { s with
      m_pTaskDataQueue := Function.update s.m_pTaskDataQueue q (s.m_pTaskDataQueue q ++ [r]) }
      (some (.received q r))
  | replied (r : ClientSocketTaskData) (id : ClientSocketOut.ActivityID) (hr : r.m_opcode = 15) :
    Moved s none s (some (.replied r (HandleGetActivityID E id r.m_pData)))
  | ignored : Moved s none s none
  | took (w : ℕ) (q : E_TQT) (r : ClientSocketTaskData) (rest : List ClientSocketTaskData)
    (hw : s.workers w = none) (hq : queueOf E w = some q) (hr : s.m_pTaskDataQueue q = r :: rest) :
    Moved s none { s with
      m_pTaskDataQueue := Function.update s.m_pTaskDataQueue q rest
      workers := Function.update s.workers w ((handler E r).map fun h => (r, h)) }
      (some (.took w r))
  | called (w : ℕ) (r : ClientSocketTaskData) (c : Call) (k : c.Reply → Handler) (v : c.Reply)
    (args : CallArgs) (sys : Sys) (hw : s.workers w = some (r, .call c k))
    (hv : s.sys.reply E.sh w args c = some v) (hsys : s.sys.afterCall E.sh w args c = some sys) :
    Moved s (c.action w args)
      { s with sys, workers := Function.update s.workers w (some (r, k v)) }
      (some (.called w ⟨c, v⟩ ((c.action w args).bind (s.sys.seen E.sh))))
  | ended (w : ℕ) (r : ClientSocketTaskData) (o : Outcome) (cfg : CompressCfg)
    (hw : s.workers w = some (r, .done o)) (ho : o ≠ .undefined) :
    Moved s none { s with
      workers := Function.update s.workers w none
      m_rDiskWriteTasks := s.m_rDiskWriteTasks ++ queued r.m_socketID o }
      (some (.ended w r (o.packet E.ps cfg)))
  | stored (a : Action) (sys : Sys) (hsys : s.sys.step E.sh a = some sys)
    (ha : s.sys.seen E.sh a = none)
    (hd : s.rDiskWriteTasksProcess ≠ [] → sys.disk = s.sys.disk) :
    Moved s (some a) { s with sys } none
  | tookTasks (hp : s.rDiskWriteTasksProcess = []) (hd : s.sys.disk = .idle) :
    Moved s none { s with m_rDiskWriteTasks := [], rDiskWriteTasksProcess := s.m_rDiskWriteTasks } none
  | dumped (task : DiskWriterTask) (rest : List DiskWriterTask)
    (hp : s.rDiskWriteTasksProcess = task :: rest) (ht : task.m_eTaskType = .edtDumpFreeSpace) :
    Moved s none { s with
      rDiskWriteTasksProcess := rest
      dumps := s.dumps ++ [⟨task.m_socketID, s.sys.store.m_dataFileSize, task.m_rData,
        s.sys.store.m_rFreeSpace⟩] } none
  | defragmented (task : DiskWriterTask) (rest : List DiskWriterTask)
    (order : List ((ℕ × ℕ) × DREC)) (sys : Sys)
    (hp : s.rDiskWriteTasksProcess = task :: rest) (hd : s.defragmented = none)
    (ht : task.m_eTaskType = .edtDefragmentFreeSpace)
    (hsys : s.sys.step E.sh (.defragmentFreeSpace order) = some sys) :
    Moved s (some (.defragmentFreeSpace order)) { s with
      sys, rDiskWriteTasksProcess := rest, defragmented := some (task.m_socketID, task.m_rData) }
      none
  | sentDefragmented (m_socketID : UInt64) (m_rData : List UInt8)
    (hd : s.defragmented = some (m_socketID, m_rData)) :
    Moved s none { s with defragmented := none } (some (.completed m_socketID ⟨30, m_rData⟩))
  | sentDump (i : ℕ) (d : DumpFreeSpaceThread) (cfg : CompressCfg) (hi : s.dumps[i]? = some d) :
    Moved s none { s with dumps := s.dumps.eraseIdx i }
      (some (.completed d.m_socketID (dumpPacket E cfg d)))

variable {E} {s t : Service} {a : Step}

/-- What `ClientSocket` puts into a queue has a handler. -/
theorem handler_of_queued {packet : Packet} {q : E_TQT} (h : queuedIn packet = some q)
    (m_socketID : UInt64) : (handler E ⟨packet.opcode, m_socketID, packet.payload⟩).isSome := by
  have htable : ∀ n : ℕ, n < 33 → (m_ClientSocketHandlers[n]?.join = some .QueueWritePacket
      ∨ m_ClientSocketHandlers[n]?.join = some .QueueReadPacket) →
      ((m_ClientSocketWorkerTaskHandlers E.sh E.ps E.behind
        E.executePythonScript)[n]?.join).isSome := by
    intro n hn
    interval_cases n <;> simp [m_ClientSocketHandlers, m_ClientSocketWorkerTaskHandlers]
  have hqueue : m_ClientSocketHandlers[packet.opcode.toNat]?.join = some .QueueWritePacket
      ∨ m_ClientSocketHandlers[packet.opcode.toNat]?.join = some .QueueReadPacket := by
    rw [queuedIn, dispatch] at h
    split at h
    case h_1 hwrite => exact Or.inl hwrite
    case h_2 hread => exact Or.inr hread
    case h_3 => cases h
  have hlt : packet.opcode.toNat < 33 := by
    by_contra hge
    rw [List.getElem?_eq_none (Nat.le_of_not_lt hge)] at hqueue
    rcases hqueue with hnone | hnone <;> cases hnone
  rw [handler, Option.isSome_map]
  exact htable _ hlt hqueue

theorem opcode_of_activity {packet : Packet}
    (h : (dispatch packet).handler = some .HandleGetActivityID) : packet.opcode = 15 := by
  have htable : ∀ n : ℕ, n < 33 →
      m_ClientSocketHandlers[n]?.join = some .HandleGetActivityID → n = 15 := by
    decide
  have hlt : packet.opcode.toNat < 33 := by
    by_contra hge
    rw [dispatch, List.getElem?_eq_none (Nat.le_of_not_lt hge)] at h
    cases h
  exact UInt16.toNat_inj.mp (htable _ hlt h)

theorem step_moved (h : step E s a = some t) :
    Moved E s (storeStep s a) t (seen E s a) := by
  cases a with
  | receive m_socketID packet id =>
    rw [step] at h
    rw [seen]
    split at h
    case h_1 q hq =>
      cases h
      rw [hq]
      exact .received q _ (handler_of_queued hq m_socketID)
    case h_2 hq =>
      cases h
      rw [hq]
      split
      case h_1 hnone => cases hnone
      case h_2 hactivity =>
        exact .replied _ id (opcode_of_activity hactivity)
      case h_3 => exact .ignored
  | take w =>
    rw [step] at h
    split at h
    case h_1 q hw hq =>
      split at h
      case h_1 r rest hr =>
        cases h
        rw [seen, hq, Option.bind_eq_bind, Option.bind_some, hr]
        exact .took w q r rest hw hq hr
      case h_2 => cases h
    case h_2 => cases h
  | call w args =>
    rw [step] at h
    rw [seen]
    split at h
    case h_1 r c k hw =>
      obtain ⟨v, hv, h⟩ := Option.bind_eq_some_iff.mp h
      obtain ⟨sys, hsys, h⟩ := Option.bind_eq_some_iff.mp h
      cases h
      rw [hv, Option.bind_eq_bind, Option.bind_some, storeStep, hw]
      exact .called w r c k v args sys hw hv hsys
    case h_2 => cases h
  | finish w cfg =>
    rw [step] at h
    rw [seen]
    split at h
    case h_1 => cases h
    case h_2 r o hne hw =>
      cases h
      rw [hw]
      exact .ended w r o cfg hw hne
    case h_3 => cases h
  | checkMemory w limit =>
    rw [step] at h
    split at h
    case h_1 =>
      obtain ⟨sys, hsys, h⟩ := Option.bind_eq_some_iff.mp h
      cases h
      refine .stored _ sys hsys rfl fun _ => ?_
      obtain ⟨store, lru, -, rfl⟩ := Sys.worker_some hsys
      rfl
    case h_2 => cases h
  | storageThread b =>
    rw [step] at h
    split at h
    case h_1 hb hp _ =>
      obtain ⟨sys, hsys, h⟩ := Option.bind_eq_some_iff.mp h
      cases h
      refine .stored b sys hsys ?_ fun hne => absurd hp hne
      cases b with
      | readRecord w x y pData => cases hb
      | readAll w x pData => cases hb
      | getAllY w x => cases hb
      | writeData w cfg cfgs x y pRecord => cases hb
      | deleteData w x => cases hb
      | deleteRecord w x y => cases hb
      | defragmentData w cfgs x => cases hb
      | _ => rfl
    case h_2 => cases h
  | takeTasks =>
    rw [step] at h
    split at h
    case h_1 hd hp _ =>
      cases h
      exact .tookTasks hp hd
    case h_2 => cases h
  | runTask order =>
    rw [step] at h
    split at h
    case h_1 task rest hp hd =>
      split at h
      case h_1 ht =>
        cases h
        rw [storeStep, hp, List.map_cons, ht]
        exact .dumped task rest hp ht
      case h_2 ht =>
        obtain ⟨sys, hsys, h⟩ := Option.bind_eq_some_iff.mp h
        cases h
        rw [storeStep, hp, List.map_cons, ht]
        exact .defragmented task rest order sys hp hd ht hsys
    case h_2 => cases h
  | sendDefragmented =>
    rw [step] at h
    rw [seen]
    split at h
    case h_1 d hd =>
      cases h
      rw [hd]
      exact .sentDefragmented d.1 d.2 hd
    case h_2 => cases h
  | sendDump i cfg =>
    rw [step] at h
    rw [seen]
    split at h
    case h_1 d hi =>
      cases h
      rw [hi]
      exact .sentDump i d cfg hi
    case h_2 => cases h

/-! ## What is due -/

/-- A response that a client waits for. -/
structure Due where
  m_socketID : UInt64
  opcode : UInt16
  token : List UInt8
  deriving DecidableEq

/-- The token of a request. -/
def tokenOf (E : Setup) (r : ClientSocketTaskData) : List UInt8 :=
  (Blman.bbuffRead E.sh r.m_pData 4).1

/-- The opcodes with a response. -/
def answeredOpcodes : List UInt16 := [1, 3, 5, 11, 13, 15, 17, 19, 21, 23, 25, 27, 29, 31]

/-- The response that a request asks for: the next opcode, with the token of the request. -/
def asked (E : Setup) (r : ClientSocketTaskData) : Due := ⟨r.m_socketID, r.m_opcode + 1, tokenOf E r⟩

/-- What a request makes due. -/
def dueFor (E : Setup) (r : ClientSocketTaskData) : Multiset Due :=
  if r.m_opcode ∈ answeredOpcodes then {asked E r} else 0

/-- What is due for a task of the disk writer. -/
def taskDue (task : DiskWriterTask) : Due where
  m_socketID := task.m_socketID
  opcode := match task.m_eTaskType with
    | .edtDumpFreeSpace => 22
    | .edtDefragmentFreeSpace => 30
  token := task.m_rData.take 4

/-- What a handler that ends with `o` has to do with its request. -/
def Settles (E : Setup) (r : ClientSocketTaskData) : Outcome → Prop
  | .send p => dueFor E r = {asked E r} ∧ p.opcode = r.m_opcode + 1
    ∧ p.payload.take 4 = tokenOf E r
  | .sendData _ opcode token _ _ _ => dueFor E r = {asked E r} ∧ opcode = r.m_opcode + 1
    ∧ (opcode ≠ 4 → token = tokenOf E r)
  | .queueTask eTaskType rData => dueFor E r = {taskDue ⟨r.m_socketID, eTaskType, rData⟩}
    ∧ 4 ≤ rData.length
  | .nothing => dueFor E r = 0
  | .undefined => True

theorem length_tokenOf (E : Setup) (r : ClientSocketTaskData) : (tokenOf E r).length = 4 :=
  length_bbuffRead _ _ _

section Handlers

variable {r : ClientSocketTaskData}

theorem take_tokenOf (rest : List UInt8) : (tokenOf E r ++ rest).take 4 = tokenOf E r :=
  List.take_left' (length_tokenOf E r)

theorem dueFor_answered (h : r.m_opcode ∈ answeredOpcodes) : dueFor E r = {asked E r} := if_pos h

theorem settles_send (h : r.m_opcode ∈ answeredOpcodes) {p : Packet} {rest : List UInt8}
    (hop : p.opcode = r.m_opcode + 1) (hp : p.payload = tokenOf E r ++ rest) :
    Settles E r (.send p) :=
  ⟨dueFor_answered h, hop, by rw [hp, take_tokenOf]⟩

theorem settles_queueTask (h : r.m_opcode ∈ answeredOpcodes) {eTaskType : EDT}
    {rData rest : List UInt8}
    (hop : (taskDue ⟨r.m_socketID, eTaskType, rData⟩).opcode = r.m_opcode + 1)
    (hd : rData = tokenOf E r ++ rest) : Settles E r (.queueTask eTaskType rData) := by
  refine ⟨?_, ?_⟩
  · have htoken : (taskDue ⟨r.m_socketID, eTaskType, rData⟩).token = tokenOf E r := by
      rw [taskDue, hd, take_tokenOf]
    rw [dueFor_answered h, asked, ← hop, ← htoken]
    rfl
  · rw [hd, List.length_append, length_tokenOf]
    omega

theorem ends_sendContent (h : r.m_opcode ∈ answeredOpcodes) {opcode : UInt16}
    (hop : opcode = r.m_opcode + 1) (read : List UInt8 → Proc Call Call.Reply (List UInt8)) :
    (Calls.sendContent E.sh opcode read r.m_pData).Ends (Settles E r) :=
  .bind (.of_forall (fun _ => ⟨dueFor_answered h, hop, fun _ => rfl⟩) _)

theorem ends_forEachX (h : r.m_opcode ∈ answeredOpcodes) {opcode : UInt16}
    (hop : opcode = r.m_opcode + 1) (body : UInt64 → Proc Call Call.Reply Unit) :
    (Calls.forEachX E.sh E.ps E.behind opcode body r.m_pData).Ends (Settles E r) :=
  .bind (.of_forall (fun _ => settles_send h hop rfl) _)

/-- The rows of the table of the handlers. -/
inductive Dispatched (E : Setup) (m_pData : List UInt8) : UInt16 → Handler → Prop
  | writeData : Dispatched E m_pData 1 (Calls.HandleWriteData E.sh m_pData)
  | readData : Dispatched E m_pData 3 (Calls.HandleReadData E.sh m_pData)
  | deleteData : Dispatched E m_pData 5 (Calls.HandleDeleteData E.sh m_pData)
  | getAllX : Dispatched E m_pData 7 (Calls.HandleGetAllX m_pData)
  | getAllY : Dispatched E m_pData 11 (Calls.HandleGetAllY E.sh m_pData)
  | status : Dispatched E m_pData 13 (Calls.HandleStatus E.sh m_pData)
  | deleteX : Dispatched E m_pData 17 (Calls.HandleDeleteX E.sh E.ps E.behind m_pData)
  | defragmentData : Dispatched E m_pData 19 (Calls.HandleDefragmentData E.sh E.ps E.behind m_pData)
  | getFreeSpace : Dispatched E m_pData 21 (Calls.HandleGetFreeSpace E.sh m_pData)
  | writeDataNum : Dispatched E m_pData 23 (Calls.HandleWriteDataNum E.sh E.ps E.behind m_pData)
  | readLog : Dispatched E m_pData 25 (Calls.HandleReadLog E.sh m_pData)
  | readConfig : Dispatched E m_pData 27 (Calls.HandleReadConfig E.sh m_pData)
  | defragmentFreeSpace : Dispatched E m_pData 29 (Calls.HandleDefragmentFreeSpace E.sh m_pData)
  | executePythonScript :
    Dispatched E m_pData 31 (Calls.HandleExecutePythonScript E.sh E.executePythonScript m_pData)

theorem handler_dispatched {h : Handler} (hr : handler E r = some h) :
    Dispatched E r.m_pData r.m_opcode h := by
  obtain ⟨handle, htable, rfl⟩ := Option.map_eq_some_iff.mp hr
  have hlt : r.m_opcode.toNat < 33 := by
    by_contra hge
    rw [List.getElem?_eq_none (Nat.le_of_not_lt hge)] at htable
    cases htable
  have hop : r.m_opcode = UInt16.ofNat r.m_opcode.toNat := UInt16.ofNat_toNat.symm
  generalize r.m_opcode.toNat = n at hlt htable hop
  rw [hop]
  interval_cases n <;> simp only [m_ClientSocketWorkerTaskHandlers, List.getElem?_cons_succ,
    List.getElem?_cons_zero, Option.join_some, Option.some.injEq, reduceCtorEq] at htable
  all_goals
    subst htable
    constructor

/-- Whatever a handler is answered, it ends with what its request asks for. -/
theorem handler_settles {h : Handler} (hr : handler E r = some h) : h.Ends (Settles E r) := by
  have hdue : r.m_opcode ∈ answeredOpcodes → dueFor E r = {asked E r} := dueFor_answered
  have hrow := handler_dispatched hr
  generalize hop : r.m_opcode = opcode at hrow hdue
  cases hrow with
  | writeData =>
    intro status
    exact settles_send (by rw [hop]; decide) (by rw [hop]; rfl) (by
      rw [writeDataResponse]
      simp only [List.append_assoc]
      rfl)
  | readData =>
    have hend : ∀ out : List UInt8, Settles E r (Calls.readResponse out) := by
      intro out
      rw [Calls.readResponse]
      split
      case isTrue => trivial
      case isFalse => exact ⟨hdue (by decide), by rw [hop]; rfl, fun hne => absurd rfl hne⟩
    rw [Calls.HandleReadData]
    dsimp only
    split
    case isTrue => exact fun out => hend _
    case isFalse => exact fun out => hend _
  | deleteData =>
    have hend : Settles E r (.send (deleteDataResponse E.sh r.m_pData)) :=
      settles_send (by rw [hop]; decide) (by rw [hop]; rfl) (by
        rw [deleteDataResponse]
        simp only [List.append_assoc]
        rfl)
    rw [Calls.HandleDeleteData]
    dsimp only
    split
    case isTrue => exact fun _ _ => hend
    case isFalse => exact fun _ => hend
  | getAllX => exact if_neg (by rw [hop]; decide)
  | getAllY => exact fun _ => ⟨hdue (by decide), by rw [hop]; rfl, fun _ => rfl⟩
  | status => exact ends_sendContent (by rw [hop]; decide) (by rw [hop]; rfl) _
  | deleteX => exact ends_forEachX (by rw [hop]; decide) (by rw [hop]; rfl) _
  | defragmentData => exact ends_forEachX (by rw [hop]; decide) (by rw [hop]; rfl) _
  | getFreeSpace =>
    exact settles_queueTask (by rw [hop]; decide) (by rw [hop]; rfl) (List.append_assoc _ _ _)
  | writeDataNum =>
    exact .bind (.of_forall (fun _ => settles_send (by rw [hop]; decide) (by rw [hop]; rfl) (by
      rw [writeDataNumResponse]
      simp only [List.append_assoc]
      rfl)) _)
  | readLog => exact ends_sendContent (by rw [hop]; decide) (by rw [hop]; rfl) _
  | readConfig => exact ends_sendContent (by rw [hop]; decide) (by rw [hop]; rfl) _
  | defragmentFreeSpace =>
    exact settles_queueTask (by rw [hop]; decide) (by rw [hop]; rfl) rfl
  | executePythonScript => exact ends_sendContent (by rw [hop]; decide) (by rw [hop]; rfl) _

end Handlers

/-! ## The count -/

/-- What is due for the task of a worker. -/
def workerDue (E : Setup) (o : Option (ClientSocketTaskData × Handler)) : Multiset Due :=
  (o.map fun p => dueFor E p.1).getD 0

/-- What is due for the tasks of all workers. -/
def workersDue (E : Setup) (workers : ℕ → Option (ClientSocketTaskData × Handler)) : Multiset Due :=
  ∑ w ∈ Finset.range (E.MaxParallelTasks + E.MaxParallelReadTasks), workerDue E (workers w)

/-- What is due for the requests in the queues. -/
def queuesDue (E : Setup) (queues : E_TQT → List ClientSocketTaskData) : Multiset Due :=
  ((queues .eTQT_Write ++ queues .eTQT_Read).map (dueFor E)).sum

/-- What is due, over all the places where a request can be. -/
def due (E : Setup) (s : Service) : Multiset Due :=
  queuesDue E s.m_pTaskDataQueue + workersDue E s.workers
    + ((s.m_rDiskWriteTasks ++ s.rDiskWriteTasksProcess).map taskDue : List Due)
    + ((s.defragmented.map fun d => (⟨d.1, 30, d.2.take 4⟩ : Due)).toList : List Due)
    + (s.dumps.map fun d => (⟨d.m_socketID, 22, d.m_rData.take 4⟩ : Due) : List Due)

/-- The requests that an event brings. -/
def requests : Seen → List ClientSocketTaskData
  | .received _ r => [r]
  | .replied r _ => [r]
  | _ => []

/-- The responses that an event sends, each with what it is a response to. -/
def answers (E : Setup) : Seen → List (Due × Packet)
  | .replied r p => [(asked E r, p)]
  | .ended _ r (some p) => [(asked E r, p)]
  | .completed m_socketID p => [(⟨m_socketID, p.opcode, p.payload.take 4⟩, p)]
  | _ => []

/-- What every state of the service keeps. -/
structure Counted (E : Setup) (s : Service) : Prop where
  queues : ∀ q, ∀ r ∈ s.m_pTaskDataQueue q, (handler E r).isSome
  workers : ∀ w r p, s.workers w = some (r, p) →
    w < E.MaxParallelTasks + E.MaxParallelReadTasks ∧ p.Ends (Settles E r)
  tasks : ∀ task ∈ s.m_rDiskWriteTasks ++ s.rDiskWriteTasksProcess, 4 ≤ task.m_rData.length
  dumps : ∀ d ∈ s.dumps, 4 ≤ d.m_rData.length

theorem queueOf_lt {w : ℕ} {q : E_TQT} (h : queueOf E w = some q) :
    w < E.MaxParallelTasks + E.MaxParallelReadTasks := by
  rw [queueOf] at h
  split at h
  case isTrue hlt => omega
  case isFalse =>
    split at h
    case isTrue hlt => exact hlt
    case isFalse => cases h

theorem counted_idle (h : Idle s) : Counted E s where
  queues q r hr := by
    rw [h.queues] at hr
    cases hr
  workers w r p hw := by
    rw [h.workers] at hw
    cases hw
  tasks task ht := by
    rw [h.tasks, h.process] at ht
    cases ht
  dumps d hd := by
    rw [h.dumps] at hd
    cases hd

theorem due_idle (h : Idle s) : due E s = 0 := by
  have hworkers : ∀ w ∈ Finset.range (E.MaxParallelTasks + E.MaxParallelReadTasks),
      workerDue E (s.workers w) = 0 := by
    intro w _
    rw [h.workers]
    rfl
  rw [due, queuesDue, workersDue, h.queues, h.queues, h.tasks, h.process, h.defragmented, h.dumps,
    Finset.sum_eq_zero hworkers]
  rfl

section Moved

variable {b : Option Action} {e : Option Seen}

theorem Counted.queue (hc : Counted E s) {q : E_TQT} {rs : List ClientSocketTaskData}
    (hrs : ∀ r ∈ rs, (handler E r).isSome) :
    ∀ q', ∀ r ∈ Function.update s.m_pTaskDataQueue q rs q', (handler E r).isSome := by
  intro q' r hr
  by_cases hq : q' = q
  · subst hq
    rw [Function.update_self] at hr
    exact hrs r hr
  · rw [Function.update_of_ne hq] at hr
    exact hc.queues q' r hr

theorem Counted.worker (hc : Counted E s) {w : ℕ} {o : Option (ClientSocketTaskData × Handler)}
    (ho : ∀ r p, o = some (r, p) →
      w < E.MaxParallelTasks + E.MaxParallelReadTasks ∧ p.Ends (Settles E r)) :
    ∀ w' r p, Function.update s.workers w o w' = some (r, p) →
      w' < E.MaxParallelTasks + E.MaxParallelReadTasks ∧ p.Ends (Settles E r) := by
  intro w' r p hw'
  by_cases hw : w' = w
  · subst hw
    rw [Function.update_self] at hw'
    exact ho r p hw'
  · rw [Function.update_of_ne hw] at hw'
    exact hc.workers w' r p hw'

theorem Counted.moved (hc : Counted E s) (hm : Moved E s b t e) : Counted E t := by
  cases hm with
  | received q r hr =>
    refine ⟨hc.queue fun r' hr' => ?_, hc.workers, hc.tasks, hc.dumps⟩
    rcases List.mem_append.mp hr' with hr' | hr'
    · exact hc.queues q r' hr'
    · rw [List.mem_singleton.mp hr']
      exact hr
  | replied r id hr => exact hc
  | ignored => exact hc
  | took w q r rest hw hq hr =>
    refine ⟨hc.queue fun r' hr' => ?_, hc.worker fun r' p hp => ?_, hc.tasks, hc.dumps⟩
    · exact hc.queues q r' (by rw [hr]; exact List.mem_cons_of_mem r hr')
    · obtain ⟨h, hh, hp⟩ := Option.map_eq_some_iff.mp hp
      cases hp
      exact ⟨queueOf_lt hq, handler_settles hh⟩
  | called w r c k v args sys hw hv hsys =>
    refine ⟨hc.queues, hc.worker fun r' p hp => ?_, hc.tasks, hc.dumps⟩
    cases hp
    obtain ⟨hlt, hends⟩ := hc.workers _ _ _ hw
    exact ⟨hlt, hends v⟩
  | ended w r o cfg hw ho =>
    refine ⟨hc.queues, hc.worker fun r' p hp => (by cases hp), fun task ht => ?_, hc.dumps⟩
    rcases List.mem_append.mp ht with ht | ht
    · rcases List.mem_append.mp ht with ht | ht
      · exact hc.tasks task (List.mem_append_left _ ht)
      · obtain ⟨-, hends⟩ := hc.workers w r _ hw
        cases o with
        | queueTask eTaskType rData =>
          rw [queued, List.mem_singleton] at ht
          subst ht
          exact hends.2
        | _ => cases ht
    · exact hc.tasks task (List.mem_append_right _ ht)
  | stored a sys hsys ha hd => exact ⟨hc.queues, hc.workers, hc.tasks, hc.dumps⟩
  | tookTasks hp hd =>
    exact ⟨hc.queues, hc.workers, fun task ht => hc.tasks task (List.mem_append_left _ ht), hc.dumps⟩
  | dumped task rest hp ht =>
    refine ⟨hc.queues, hc.workers, fun task' ht' => hc.tasks task' ?_, fun d hd => ?_⟩
    · rw [hp]
      rcases List.mem_append.mp ht' with ht' | ht'
      · exact List.mem_append_left _ ht'
      · exact List.mem_append_right _ (List.mem_cons_of_mem task ht')
    · rcases List.mem_append.mp hd with hd | hd
      · exact hc.dumps d hd
      · rw [List.mem_singleton.mp hd]
        exact hc.tasks task (by rw [hp]; exact List.mem_append_right _ List.mem_cons_self)
  | defragmented task rest order sys hp hd ht hsys =>
    refine ⟨hc.queues, hc.workers, fun task' ht' => hc.tasks task' ?_, hc.dumps⟩
    rw [hp]
    rcases List.mem_append.mp ht' with ht' | ht'
    · exact List.mem_append_left _ ht'
    · exact List.mem_append_right _ (List.mem_cons_of_mem task ht')
  | sentDefragmented m_socketID m_rData hd => exact ⟨hc.queues, hc.workers, hc.tasks, hc.dumps⟩
  | sentDump i d cfg hi =>
    exact ⟨hc.queues, hc.workers, hc.tasks, fun d' hd' => hc.dumps d' (List.mem_of_mem_eraseIdx hd')⟩

/-- One worker's part in the sum changes. -/
theorem workersDue_update {w : ℕ} (hw : w < E.MaxParallelTasks + E.MaxParallelReadTasks)
    (workers : ℕ → Option (ClientSocketTaskData × Handler))
    (o : Option (ClientSocketTaskData × Handler)) :
    workersDue E (Function.update workers w o) + workerDue E (workers w)
      = workersDue E workers + workerDue E o := by
  have hmem := Finset.mem_range.mpr hw
  have hother : ∀ i ∈ (Finset.range (E.MaxParallelTasks + E.MaxParallelReadTasks)).erase w,
      workerDue E (Function.update workers w o i) = workerDue E (workers i) := by
    intro i hi
    rw [Function.update_of_ne (Finset.ne_of_mem_erase hi)]
  rw [workersDue, workersDue, ← Finset.add_sum_erase _ _ hmem,
    ← Finset.add_sum_erase _ (fun i => workerDue E (workers i)) hmem,
    Finset.sum_congr rfl hother, Function.update_self]
  abel

theorem queuesDue_push (queues : E_TQT → List ClientSocketTaskData) (q : E_TQT)
    (r : ClientSocketTaskData) :
    queuesDue E (Function.update queues q (queues q ++ [r])) = queuesDue E queues + dueFor E r := by
  cases q with
  | eTQT_Write =>
    rw [queuesDue, queuesDue, Function.update_self, Function.update_of_ne (by decide)]
    simp only [List.map_append, List.sum_append, List.map_singleton, List.sum_singleton]
    abel
  | eTQT_Read =>
    rw [queuesDue, queuesDue, Function.update_self, Function.update_of_ne (by decide)]
    simp only [List.map_append, List.sum_append, List.map_singleton, List.sum_singleton]
    abel

theorem queuesDue_pop {queues : E_TQT → List ClientSocketTaskData} {q : E_TQT}
    {r : ClientSocketTaskData} {rest : List ClientSocketTaskData} (h : queues q = r :: rest) :
    queuesDue E queues = queuesDue E (Function.update queues q rest) + dueFor E r := by
  cases q with
  | eTQT_Write =>
    rw [queuesDue, queuesDue, Function.update_self, Function.update_of_ne (by decide), h]
    simp only [List.cons_append, List.map_cons, List.sum_cons, List.map_append, List.sum_append]
    abel
  | eTQT_Read =>
    rw [queuesDue, queuesDue, Function.update_self, Function.update_of_ne (by decide), h]
    simp only [List.map_cons, List.sum_cons, List.map_append, List.sum_append]
    abel

theorem sendData_opcode {ps : PacketShared} {cfg : CompressCfg} {limit : ℕ} {opcode : UInt16}
    (token flags fields data : List UInt8) :
    (sendData ps cfg limit opcode token flags fields data).opcode = opcode := by
  rw [sendData]
  split <;> rfl

theorem sendData_take {ps : PacketShared} {cfg : CompressCfg} {limit : ℕ} {opcode : UInt16}
    {token : List UInt8} (htoken : token.length = 4) (flags fields data : List UInt8) :
    (sendData ps cfg limit opcode token flags fields data).payload.take 4 = token := by
  rw [sendData]
  split
  case h_1 =>
    simp only [List.append_assoc]
    exact List.take_left' htoken
  case h_2 =>
    simp only [List.append_assoc]
    exact List.take_left' htoken

theorem dumpPacket_header {d : DumpFreeSpaceThread} (cfg : CompressCfg)
    (hd : 4 ≤ d.m_rData.length) : (dumpPacket E cfg d).opcode = 22
      ∧ (dumpPacket E cfg d).payload.take 4 = d.m_rData.take 4 :=
  ⟨sendData_opcode _ _ _ _, sendData_take (List.length_take_of_le hd) _ _ _⟩

/-- What the requests of an event make due, and what was due before, is what its responses
settle, and what is due after it. -/
theorem due_moved (hc : Counted E s) (hm : Moved E s b t e) :
    ((e.toList.flatMap requests).map (dueFor E)).sum + due E s
      = (((e.toList.flatMap (answers E)).map Prod.fst : List Due) : Multiset Due) + due E t := by
  cases hm with
  | received q r hr =>
    simp only [due, queuesDue_push, Option.toList_some, List.flatMap_singleton, requests, answers,
      List.map_singleton, List.sum_singleton, List.map_nil, Multiset.coe_nil]
    abel
  | replied r id hr =>
    have hdue : dueFor E r = {asked E r} := dueFor_answered (by rw [hr]; decide)
    simp only [Option.toList_some, List.flatMap_singleton, requests, answers, hdue,
      List.map_singleton, List.sum_singleton, Multiset.coe_singleton]
  | ignored => rfl
  | took w q r rest hw hq hr =>
    obtain ⟨h, hh⟩ := Option.isSome_iff_exists.mp
      (hc.queues q r (by rw [hr]; exact List.mem_cons_self))
    have hworkers := workersDue_update (queueOf_lt hq) s.workers (some (r, h))
    rw [hw] at hworkers
    have hworkers : _ + 0 = _ + dueFor E r := hworkers
    rw [add_zero] at hworkers
    simp only [due, hh, Option.map_some, queuesDue_pop hr, hworkers, Option.toList_some,
      List.flatMap_singleton, requests, answers, List.map_nil, List.sum_nil, Multiset.coe_nil]
    abel
  | called w r c k v args sys hw hv hsys =>
    have hworkers := workersDue_update (hc.workers w r _ hw).1 s.workers (some (r, k v))
    rw [hw] at hworkers
    have hsame : workersDue E (Function.update s.workers w (some (r, k v)))
        = workersDue E s.workers := add_right_cancel hworkers
    simp only [due, hsame, Option.toList_some, List.flatMap_singleton, requests, answers,
      List.map_nil, List.sum_nil, Multiset.coe_nil]
  | ended w r o cfg hw ho =>
    obtain ⟨hlt, hends⟩ := hc.workers w r _ hw
    have hworkers := workersDue_update hlt s.workers none
    rw [hw] at hworkers
    have hworkers : _ + dueFor E r = workersDue E s.workers + 0 := hworkers
    rw [add_zero] at hworkers
    have hgoal : dueFor E r = (((answers E (.ended w r (o.packet E.ps cfg))).map Prod.fst
        ++ (queued r.m_socketID o).map taskDue : List Due) : Multiset Due) := by
      cases o with
      | send p => exact hends.1
      | sendData limit opcode token flags fields data => exact hends.1
      | queueTask eTaskType rData => exact hends.1
      | nothing => exact hends
      | undefined => exact absurd rfl ho
    simp only [due, ← hworkers, hgoal, Option.toList_some, List.flatMap_singleton, requests,
      List.map_nil, List.sum_nil, List.map_append, ← Multiset.coe_add]
    abel
  | stored a sys hsys ha hd => rfl
  | tookTasks hp hd =>
    simp only [due, hp, List.append_nil, List.nil_append, Option.toList_none, List.flatMap_nil,
      List.map_nil, List.sum_nil, Multiset.coe_nil]
  | dumped task rest hp ht =>
    have htask : taskDue task = ⟨task.m_socketID, 22, task.m_rData.take 4⟩ := by
      rw [taskDue, ht]
    simp only [due, hp, Option.toList_none, List.flatMap_nil, List.map_nil, List.sum_nil,
      Multiset.coe_nil, List.map_append, List.map_cons, ← Multiset.coe_add, ← Multiset.cons_coe,
      ← Multiset.singleton_add, htask]
    abel
  | defragmented task rest order sys hp hd ht hsys =>
    have htask : taskDue task = ⟨task.m_socketID, 30, task.m_rData.take 4⟩ := by
      rw [taskDue, ht]
    simp only [due, hp, hd, Option.toList_none, List.flatMap_nil, List.map_nil, List.sum_nil,
      Multiset.coe_nil, List.map_append, List.map_cons, ← Multiset.coe_add, ← Multiset.cons_coe,
      ← Multiset.singleton_add, htask, Option.map_none, Option.map_some, Option.toList_some]
    abel
  | sentDefragmented m_socketID m_rData hd =>
    simp only [due, hd, Option.toList_some, List.flatMap_singleton, requests, answers,
      List.map_nil, List.sum_nil, List.map_singleton, Option.map_some, Option.map_none,
      Option.toList_none, Multiset.coe_nil]
    abel
  | sentDump i d cfg hi =>
    obtain ⟨hlt, hd⟩ := List.getElem?_eq_some_iff.mp hi
    have hmem : d ∈ s.dumps := List.mem_of_getElem? hi
    obtain ⟨hop, htoken⟩ := dumpPacket_header (E := E) cfg (hc.dumps d hmem)
    have hdumps : (s.dumps.map fun d => (⟨d.m_socketID, 22, d.m_rData.take 4⟩ : Due)).Perm
        (⟨d.m_socketID, 22, d.m_rData.take 4⟩
          :: (s.dumps.eraseIdx i).map fun d => ⟨d.m_socketID, 22, d.m_rData.take 4⟩) := by
      have hperm := List.getElem_cons_eraseIdx_perm hlt
      rw [hd] at hperm
      exact (hperm.map _).symm
    simp only [due, Multiset.coe_eq_coe.mpr hdumps, hop, htoken, Option.toList_some,
      List.flatMap_singleton, requests, answers, List.map_nil, List.sum_nil, List.map_singleton,
      ← Multiset.cons_coe, ← Multiset.singleton_add]
    abel

/-- A response has the opcode it must have, and begins with the token of its request, if it is
none with records. -/
theorem answers_moved (hc : Counted E s) (hm : Moved E s b t e) :
    ∀ a ∈ e.toList.flatMap (answers E),
      a.2.opcode = a.1.opcode ∧ (a.1.opcode ≠ 4 → a.2.payload.take 4 = a.1.token) := by
  intro a ha
  cases hm with
  | replied r id hr =>
    rw [List.mem_singleton.mp ha]
    refine ⟨?_, fun _ => ?_⟩
    · change (16 : UInt16) = r.m_opcode + 1
      rw [hr]
      rfl
    · change ((toLE 4 (UInt32.ofNat (ofLE (tokenOf E r))).toNat ++ _) ++ _).take 4 = tokenOf E r
      rw [toLE_ofNat_ofLE (length_tokenOf E r), List.append_assoc, take_tokenOf]
  | ended w r o cfg hw ho =>
    obtain ⟨-, hends⟩ := hc.workers w r _ hw
    rw [Option.toList_some, List.flatMap_singleton] at ha
    cases o with
    | send p =>
      rw [List.mem_singleton.mp ha]
      exact ⟨hends.2.1, fun _ => hends.2.2⟩
    | sendData limit opcode token flags fields data =>
      rw [List.mem_singleton.mp ha]
      refine ⟨(sendData_opcode _ _ _ _).trans hends.2.1, fun hne => ?_⟩
      have htoken : token = tokenOf E r := by
        refine hends.2.2 ?_
        rwa [hends.2.1]
      subst htoken
      exact sendData_take (length_tokenOf E r) _ _ _
    | _ => cases ha
  | sentDefragmented m_socketID m_rData hd =>
    rw [List.mem_singleton.mp ha]
    exact ⟨rfl, fun _ => rfl⟩
  | sentDump i d cfg hi =>
    rw [List.mem_singleton.mp ha]
    exact ⟨rfl, fun _ => rfl⟩
  | _ => cases ha

end Moved

/-! ## Over a run -/

variable {ok : Service → Step → Service → Prop}

/-- The responses that were sent, with those that are due at the end, are those that the
requests ask for. -/
theorem shows_due {es : List Seen} (hs : Idle s) (h : (service E).Shows ok (seen E) s es t) :
    ((es.flatMap requests).map (dueFor E)).sum
      = (((es.flatMap (answers E)).map Prod.fst : List Due) : Multiset Due) + due E t := by
  have hrun := h.invariant (fun t es => Counted E t ∧ ((es.flatMap requests).map (dueFor E)).sum
    = (((es.flatMap (answers E)).map Prod.fst : List Due) : Multiset Due) + due E t) ?_ ?_
  · exact hrun.2
  · rintro u es a v ⟨hc, hsum⟩ - hstep
    have hdue := due_moved hc (step_moved hstep)
    refine ⟨hc.moved (step_moved hstep), ?_⟩
    rw [List.flatMap_append, List.flatMap_append, List.map_append, List.map_append,
      List.sum_append, hsum, ← Multiset.coe_add, add_assoc, add_comm (due E u), hdue, add_assoc]
  · refine ⟨counted_idle hs, ?_⟩
    rw [due_idle hs]
    rfl

/-- Each has the opcode it must have, and begins with the token of its request. -/
theorem shows_headers {es : List Seen} (hs : Idle s) (h : (service E).Shows ok (seen E) s es t) :
    ∀ a ∈ es.flatMap (answers E),
      a.2.opcode = a.1.opcode ∧ (a.1.opcode ≠ 4 → a.2.payload.take 4 = a.1.token) := by
  have hrun := h.invariant (fun t es => Counted E t ∧ ∀ a ∈ es.flatMap (answers E),
    a.2.opcode = a.1.opcode ∧ (a.1.opcode ≠ 4 → a.2.payload.take 4 = a.1.token)) ?_ ?_
  · exact hrun.2
  · rintro u es a v ⟨hc, hall⟩ - hstep
    refine ⟨hc.moved (step_moved hstep), fun b hb => ?_⟩
    rw [List.flatMap_append, List.mem_append] at hb
    rcases hb with hb | hb
    · exact hall b hb
    · exact answers_moved hc (step_moved hstep) b hb
  · exact ⟨counted_idle hs, fun a ha => by cases ha⟩

/-- **Every request is answered once, or will be**: the responses that were sent, with those that
are due at the end, are those that the requests ask for. -/
theorem answered_once {es : List Seen} (hs : Idle s)
    (h : (service E).Shows ok (seen E) s es t) :
    ((es.flatMap requests).map (dueFor E)).sum
        = (((es.flatMap (answers E)).map Prod.fst : List Due) : Multiset Due) + due E t
      ∧ ∀ a ∈ es.flatMap (answers E),
        a.2.opcode = a.1.opcode ∧ (a.1.opcode ≠ 4 → a.2.payload.take 4 = a.1.token) :=
  ⟨shows_due hs h, shows_headers hs h⟩

/-- A write and a report of the free space, one after another. -/
theorem answered_once_two : ∃ s es t, Idle s
    ∧ (service twoWorkers).Shows (fun _ _ _ => True) (seen twoWorkers) s es t
    ∧ (es.flatMap (answers twoWorkers)).map (fun a => a.1.opcode) = [2, 22]
    ∧ ((es.flatMap requests).map (dueFor twoWorkers)).sum
        = (((es.flatMap (answers twoWorkers)).map Prod.fst : List Due) : Multiset Due)
          + due twoWorkers t := by
  have hrun : (Sys.fresh.bind fun sys => (service twoWorkers).observe (seen twoWorkers)
      (fun _ _ => true) (fresh sys)
      [sent 5 (.writeData 7 1 [1, 2, 3]), sent 6 .fragment, .take 0, calls 0, .finish 0 ⟨5, 1024⟩,
        .take 0, .finish 0 ⟨5, 1024⟩, .takeTasks, .runTask [], .sendDump 0 ⟨5, 1024⟩]).any
      (fun p => decide ((p.1.flatMap (answers twoWorkers)).map (fun a => a.1.opcode) = [2, 22]))
      = true := by
    decide +kernel
  obtain ⟨sys, es, t, -, hshows, hp⟩ := exists_served twoWorkers (fun _ _ _ => True)
    (fun _ _ _ _ _ => trivial) hrun
  exact ⟨fresh sys, es, t, idle_fresh sys, hshows, of_decide_eq_true hp,
    (answered_once (idle_fresh sys) hshows).1⟩

/-- The requests that are put into a queue. -/
def putInto (q : E_TQT) : Seen → Option ClientSocketTaskData
  | .received q' r => if q' = q then some r else none
  | _ => none

/-- The requests that are taken from a queue. -/
def takenFrom (E : Setup) (q : E_TQT) : Seen → Option ClientSocketTaskData
  | .took w r => if queueOf E w = some q then some r else none
  | _ => none

theorem queue_moved {b : Option Action} {e : Option Seen} (hm : Moved E s b t e) (q : E_TQT) :
    s.m_pTaskDataQueue q ++ e.toList.filterMap (putInto q)
      = e.toList.filterMap (takenFrom E q) ++ t.m_pTaskDataQueue q := by
  have hsame : s.m_pTaskDataQueue q ++ [] = [] ++ s.m_pTaskDataQueue q := List.append_nil _
  cases hm with
  | received q' r hr =>
    by_cases hq : q' = q
    · subst hq
      simp [putInto, takenFrom]
    · simp [putInto, takenFrom, hq, Function.update_of_ne (Ne.symm hq)]
  | took w q' r rest hw hq' hr =>
    by_cases hq : q' = q
    · subst hq
      simp [putInto, takenFrom, hq', hr]
    · simp [putInto, takenFrom, hq', hq, Function.update_of_ne (Ne.symm hq)]
  | _ => exact hsame

end Service

end TransDB
