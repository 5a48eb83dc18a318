/-
The handlers of the workers, call by call.

Between two calls that a handler makes into the storage other threads run, so a handler
is a procedure: what it asks for, and what it does with the answer. It ends with what it
leaves behind, a response or a task for the disk writer. Run with nothing in between it is
the function of the storage that the other modules have (`exec_handleWriteData`).

A script is any procedure that calls what the interface for scripts offers.
-/
import TransDB.Procedure
import TransDB.PythonClient
import TransDB.System

set_option autoImplicit false

namespace TransDB

open ByteList

/-- The bits of a `E_BMS`. -/
def WriteStatus.bits (status : WriteStatus) : UInt32 :=
  if status.failRecordTooBig then 4
  else 1 ||| (if status.reallocatedBlocks then 2 else 0)
    ||| (if status.recordCountLimit then 16 else 0) ||| (if status.oldRecord then 32 else 0)
    ||| (if status.needDefrag then 64 else 0)

/-- `E_DISKWRITETASK_TYPE` -/
inductive EDT
  | edtDumpFreeSpace
  | edtDefragmentFreeSpace
  deriving DecidableEq, Repr

namespace ClientSocketWorkerTask

/-! ## What a handler asks for -/

/-- A call of a handler: of a storage function, of the two halves of `DeleteData`, or of
something that has nothing to do with the records. -/
inductive Call
  | readRecord (x y : UInt64) (pData : List UInt8)
  | readAll (x : UInt64) (pData : List UInt8)
  | getAllY (x : UInt64)
  | writeData (x y : UInt64) (pRecord : List UInt8)
  | deleteData (x : UInt64)
  | remove (x : UInt64)
  | deleteRecord (x y : UInt64)
  | defragmentData (x : UInt64)
  | getStats
  | getFileLogContent
  | readConfigFile

/-- What comes back; `none` is an X that is not there. -/
@[reducible] def Call.Reply : Call → Type
  | .readRecord _ _ _ | .readAll _ _ => Option (List UInt8)
  | .getAllY _ => Option (List UInt64)
  | .writeData _ _ _ => WriteStatus
  | .deleteData _ | .remove _ | .deleteRecord _ _ | .defragmentData _ => Unit
  | .getStats | .getFileLogContent | .readConfigFile => List UInt8

/-- What a handler ends with. -/
inductive Outcome
  /-- A packet that is sent. -/
  | send (p : Packet)
  /-- Data sent behind token, flags and `fields`, compressed if they are longer than the limit
  that the configuration then has. -/
  | sendData (limit : CompressCfg → ℕ) (opcode : UInt16) (token flags fields data : List UInt8)
  /-- `QueueTask` of the disk writer, which sends the response. -/
  | queueTask (eTaskType : EDT) (rData : List UInt8)
  | nothing
  /-- The size of the data is computed below zero. -/
  | undefined

/-- The packet that is sent. -/
def Outcome.packet (ps : PacketShared) (cfg : CompressCfg) : Outcome → Option Packet
  | .send p => some p
  | .sendData limit opcode token flags fields data =>
    some (ClientSocketWorkerTask.sendData ps cfg (limit cfg) opcode token flags fields data)
  | _ => none

/-- A handler with its arguments. -/
abbrev Handler := Proc Call Call.Reply Outcome

/-! ## The handlers -/

namespace Calls

variable (sh : Shared) (ps : PacketShared) (behind : List UInt8 → ℕ → UInt8)

/-- `Storage::DeleteData` of an X. -/
def deleteX {α : Type} (X : UInt64) (k : Proc Call Call.Reply α) : Proc Call Call.Reply α :=
  --erase from disk queue
  .call (.deleteData X) fun _ => .call (.remove X) fun _ => k

/-- `ClientSocketWorkerTask::HandleWriteData` -/
def HandleWriteData (m_pData : List UInt8) : Handler :=
  let (_, rest) := Blman.bbuffRead sh m_pData 4
  let (_, rest) := Blman.bbuffRead sh rest 4
  let (x, rest) := Blman.bbuffRead sh rest 8
  let (y, pRecord) := Blman.bbuffRead sh rest 8
  let recordSize := u16 pRecord.length
  .call (.writeData (UInt64.ofNat (ofLE x)) (UInt64.ofNat (ofLE y)) (pRecord.take recordSize))
    fun writeStatus => .done (.send (writeDataResponse sh writeStatus.bits m_pData))

/-- The end of `HandleReadData`, with the buffer as `ReadData` leaves it: its first 24 bytes
are the header. -/
def readResponse (pReadData : List UInt8) : Outcome :=
  if pReadData.length < 24 then .undefined
  else .sendData limit32 4 (slice pReadData 0 4) (slice pReadData 4 4) (slice pReadData 8 16)
    (pReadData.drop 24)

/-- `ClientSocketWorkerTask::HandleReadData` -/
def HandleReadData (m_pData : List UInt8) : Handler :=
  let (token, rest) := Blman.bbuffRead sh m_pData 4
  let (flags, rest) := Blman.bbuffRead sh rest 4
  let (x, rest) := Blman.bbuffRead sh rest 8
  let (y, _) := Blman.bbuffRead sh rest 8
  let X := UInt64.ofNat (ofLE x)
  let Y := UInt64.ofNat (ofLE y)
  --prepare packet
  let pReadData := token ++ flags ++ x ++ y
  --if Y == 0 then read all data under X
  if Y = 0 then
    .call (.readAll X pReadData) fun out => .done (readResponse (out.getD pReadData))
  else .call (.readRecord X Y pReadData) fun out => .done (readResponse (out.getD pReadData))

/-- `ClientSocketWorkerTask::HandleDeleteData` -/
def HandleDeleteData (m_pData : List UInt8) : Handler :=
  let (_, rest) := Blman.bbuffRead sh m_pData 4
  let (_, rest) := Blman.bbuffRead sh rest 4
  let (x, rest) := Blman.bbuffRead sh rest 8
  let (y, _) := Blman.bbuffRead sh rest 8
  let X := UInt64.ofNat (ofLE x)
  let Y := UInt64.ofNat (ofLE y)
  let finish : Handler := .done (.send (deleteDataResponse sh m_pData))
  if Y = 0 then deleteX X finish else .call (.deleteRecord X Y) fun _ => finish

/-- `ClientSocketWorkerTask::HandleGetAllX` -/
def HandleGetAllX (_m_pData : List UInt8) : Handler :=
  --TODO: implement
  .done .nothing

/-- `ClientSocketWorkerTask::HandleGetAllY` -/
def HandleGetAllY (m_pData : List UInt8) : Handler :=
  let (token, rest) := Blman.bbuffRead sh m_pData 4
  let (flags, rest) := Blman.bbuffRead sh rest 4
  let (x, _) := Blman.bbuffRead sh rest 8
  .call (.getAllY (UInt64.ofNat (ofLE x))) fun pY =>
    .done (.sendData limit64 12 token flags x ((pY.getD []).flatMap fun Y => toLE 8 Y.toNat))

/-- A handler that sends what `read` puts behind token and flags. -/
def sendContent (opcode : UInt16) (read : List UInt8 → Proc Call Call.Reply (List UInt8))
    (m_pData : List UInt8) : Handler :=
  let (token, rest) := Blman.bbuffRead sh m_pData 4
  let (flags, rest) := Blman.bbuffRead sh rest 4
  (read rest).bind fun data => .done (.sendData limit64 opcode token flags [] data)

/-- `ClientSocketWorkerTask::HandleStatus` -/
def HandleStatus : List UInt8 → Handler := sendContent sh 14 fun _ => .call .getStats .done

/-- `ClientSocketWorkerTask::HandleReadLog` -/
def HandleReadLog : List UInt8 → Handler := sendContent sh 26 fun _ => .call .getFileLogContent .done

/-- `ClientSocketWorkerTask::HandleReadConfig` -/
def HandleReadConfig : List UInt8 → Handler := sendContent sh 28 fun _ => .call .readConfigFile .done

/-- `ClientSocketWorkerTask::HandleExecutePythonScript` -/
def HandleExecutePythonScript
    (executePythonScript : List UInt8 → Proc Call Call.Reply (List UInt8)) :
    List UInt8 → Handler :=
  sendContent sh 32 executePythonScript

/-- A handler of a list of keys, and what it does with each of them. -/
def forEachX (opcode : UInt16) (body : UInt64 → Proc Call Call.Reply Unit) (m_pData : List UInt8) :
    Handler :=
  let (token, rest) := Blman.bbuffRead sh m_pData 4
  let (flags, pXs) := Blman.bbuffRead sh rest 4
  --decompress
  let (flags, pXs) := decompressBody ps (UInt32.ofNat (ofLE flags)) pXs
  --only if decompression is ok
  let turns :=
    if flags = ps.ePF_NULL then xTurns (memory pXs (behind pXs)) pXs.length 0 else []
  (Proc.forEach (fun _ t => body t.X) () turns).bind fun _ =>
    .done (.send ⟨opcode, token ++ toLE 4 flags.toNat⟩)

/-- `ClientSocketWorkerTask::HandleDeleteX` -/
def HandleDeleteX : List UInt8 → Handler :=
  forEachX sh ps behind 18 fun X => deleteX X (.done ())

/-- `ClientSocketWorkerTask::HandleDefragmentData` -/
def HandleDefragmentData : List UInt8 → Handler :=
  forEachX sh ps behind 20 fun X => .call (.defragmentData X) .done

/-- `ClientSocketWorkerTask::HandleGetFreeSpace` -/
def HandleGetFreeSpace (m_pData : List UInt8) : Handler :=
  let (token, rest) := Blman.bbuffRead sh m_pData 4
  let (flags, rest) := Blman.bbuffRead sh rest 4
  let (dumpFlags, _) := Blman.bbuffRead sh rest 4
  .done (.queueTask .edtDumpFreeSpace (token ++ flags ++ dumpFlags))

/-- `ClientSocketWorkerTask::HandleWriteDataNum` -/
def HandleWriteDataNum (m_pData : List UInt8) : Handler :=
  let (_, rest) := Blman.bbuffRead sh m_pData 4
  let (flags, rest) := Blman.bbuffRead sh rest 4
  let (x, pData) := Blman.bbuffRead sh rest 8
  let X := UInt64.ofNat (ofLE x)
  --decompress
  let (flags, pData) := decompressBody ps (UInt32.ofNat (ofLE flags)) pData
  --only if decompression is ok
  let turns :=
    if flags = ps.ePF_NULL then writeTurns (memory pData (behind pData)) pData.length 0 else []
  let loop : Proc Call Call.Reply UInt32 :=
    Proc.forEach (fun writeStatus t => .call (.writeData X t.record.key t.record.data)
      fun status => .done (writeStatus ||| status.bits)) 0 turns
  loop.bind fun writeStatus => .done (.send (writeDataNumResponse sh ps writeStatus m_pData))

/-- `ClientSocketWorkerTask::HandleDefragmentFreeSpace` -/
def HandleDefragmentFreeSpace (m_pData : List UInt8) : Handler :=
  let (token, rest) := Blman.bbuffRead sh m_pData 4
  let (flags, _) := Blman.bbuffRead sh rest 4
  .done (.queueTask .edtDefragmentFreeSpace (token ++ flags))

end Calls

/-- `m_ClientSocketWorkerTaskHandlers`, indexed by opcode. -/
def m_ClientSocketWorkerTaskHandlers (sh : Shared) (ps : PacketShared)
    (behind : List UInt8 → ℕ → UInt8)
    (executePythonScript : List UInt8 → Proc Call Call.Reply (List UInt8)) :
    List (Option (List UInt8 → Handler)) :=
  [none,
    some (Calls.HandleWriteData sh), none,
    some (Calls.HandleReadData sh), none,
    some (Calls.HandleDeleteData sh), none,
    some Calls.HandleGetAllX, none,
    none, none,
    some (Calls.HandleGetAllY sh), none,
    some (Calls.HandleStatus sh), none,
    none, none,
    some (Calls.HandleDeleteX sh ps behind), none,
    some (Calls.HandleDefragmentData sh ps behind), none,
    some (Calls.HandleGetFreeSpace sh), none,
    some (Calls.HandleWriteDataNum sh ps behind), none,
    some (Calls.HandleReadLog sh), none,
    some (Calls.HandleReadConfig sh), none,
    some (Calls.HandleDefragmentFreeSpace sh), none,
    some (Calls.HandleExecutePythonScript sh executePythonScript), none]

/-! ## Run with nothing in between -/

/-- What a call reads besides its arguments: the configuration, and what is not a record. -/
structure CallArgs where
  cfg : WriteCfg
  cfgs : ℕ → WriteCfg
  content : List UInt8

/-- A call run on the storage. -/
def Call.run (sh : Shared) (args : CallArgs) :
    (c : Call) → Storage × LRUCache → Option (c.Reply × Storage × LRUCache)
  | .readRecord x y pData, (st, lru) => st.ReadData sh lru x y pData
  | .readAll x pData, (st, lru) => st.ReadDataAll sh lru x pData
  | .getAllY x, (st, lru) => st.GetAllY sh lru x
  | .writeData x y pRecord, (st, lru) => st.WriteData sh args.cfg args.cfgs lru x y pRecord
  | .deleteData x, (st, lru) => (st.DeleteData sh lru x).map fun s => ((), s)
  | .remove x, (st, lru) => some ((), DiskWriter.Remove st x, lru)
  | .deleteRecord x y, (st, lru) => (st.DeleteRecord sh lru x y).map fun s => ((), s)
  | .defragmentData x, (st, lru) => (st.DefragmentData sh args.cfgs lru x).map fun s => ((), s)
  | .getStats, s => some (args.content, s)
  | .getFileLogContent, s => some (args.content, s)
  | .readConfigFile, s => some (args.content, s)

/-- The handler of a write, run to its end, is the function on the storage. -/
theorem exec_handleWriteData (sh : Shared) (args : CallArgs) (m_pData : List UInt8) (st : Storage)
    (lru : LRUCache) :
    (Calls.HandleWriteData sh m_pData).exec (Call.run sh args) (st, lru)
      = (HandleWriteData sh args.cfg args.cfgs st lru m_pData).map fun p =>
        (.send (writeDataResponse sh p.1.writeStatus.bits m_pData), p.2) := by
  rw [HandleWriteData, Calls.HandleWriteData]
  dsimp only
  rw [Proc.exec, Call.run]
  cases st.WriteData sh args.cfg args.cfgs lru _ _ _ with
  | none => rfl
  | some p => rfl

theorem length_bbuffRead (sh : Shared) (bytes : List UInt8) (n : ℕ) :
    (Blman.bbuffRead sh bytes n).1.length = n := by
  rw [Blman.bbuffRead]
  split
  case isTrue h => exact List.length_take_of_le h
  case isFalse => exact List.takeD_length _ _ _

/-- A number that is sent back as it was read. -/
theorem toLE_ofNat_ofLE {bytes : List UInt8} (h : bytes.length = 4) :
    toLE 4 (UInt32.ofNat (ofLE bytes)).toNat = bytes := by
  have hlt := ofLE_lt bytes
  rw [h] at hlt
  rw [UInt32.toNat_ofNat_of_lt' hlt, ← h, toLE_ofLE]

/-- A loop whose turns are one function each. -/
theorem exec_forEach_unit {sh : Shared} {args : CallArgs} {β : Type}
    {body : β → Proc Call Call.Reply Unit}
    {op : β → Storage × LRUCache → Option (Storage × LRUCache)}
    (hbody : ∀ b s, (body b).exec (Call.run sh args) s = (op b s).map fun s => ((), s))
    (bs : List β) (s : Storage × LRUCache) :
    (Proc.forEach (fun _ b => body b) () bs).exec (Call.run sh args) s
      = (bs.foldlM (fun s b => op b s) s).map fun s => ((), s) := by
  rw [Proc.exec_forEach]
  induction bs generalizing s with
  | nil => rfl
  | cons b bs ih =>
    rw [List.foldlM_cons, List.foldlM_cons, hbody]
    cases op b s with
    | none => rfl
    | some s => exact ih s

/-- The handler of a list of keys is the function on the storage, if its body is what the
function does to each of them. -/
theorem exec_forEachX {sh : Shared} {ps : PacketShared} {behind : List UInt8 → ℕ → UInt8}
    {args : CallArgs} {opcode : UInt16} {body : UInt64 → Proc Call Call.Reply Unit}
    {op : XTurn → Storage → LRUCache → Option (Storage × LRUCache)}
    (hbody : ∀ (t : XTurn) (s : Storage × LRUCache),
      (body t.X).exec (Call.run sh args) s = (op t s.1 s.2).map fun s => ((), s))
    (m_pData : List UInt8) (st : Storage) (lru : LRUCache) :
    (Calls.forEachX sh ps behind opcode body m_pData).exec (Call.run sh args) (st, lru)
      = (handleXs sh ps behind op st lru m_pData).map fun p =>
        (.send ⟨opcode, toLE 4 p.1.token.toNat ++ toLE 4 p.1.flags.toNat⟩, p.2) := by
  rw [Calls.forEachX, handleXs]
  dsimp only
  rw [Proc.exec_bind, exec_forEach_unit hbody]
  have htoken := toLE_ofNat_ofLE (length_bbuffRead sh m_pData 4)
  generalize (List.foldlM (fun (s : Storage × LRUCache) (t : XTurn) => op t s.1 s.2) (st, lru) _ :
    Option (Storage × LRUCache)) = o
  cases o with
  | none => rfl
  | some s =>
    change some (_, s) = some (_, s)
    rw [htoken]

/-- The handler of a list of keys to be deleted is the function on the storage. -/
theorem exec_handleDeleteX (sh : Shared) (ps : PacketShared) (behind : List UInt8 → ℕ → UInt8)
    (args : CallArgs) (m_pData : List UInt8) (st : Storage) (lru : LRUCache) :
    (Calls.HandleDeleteX sh ps behind m_pData).exec (Call.run sh args) (st, lru)
      = (HandleDeleteX sh ps behind st lru m_pData).map fun p =>
        (.send ⟨18, toLE 4 p.1.token.toNat ++ toLE 4 p.1.flags.toNat⟩, p.2) := by
  refine exec_forEachX (fun t s => ?_) m_pData st lru
  rw [Calls.deleteX, Proc.exec, Call.run]
  cases s.1.DeleteData sh s.2 t.X <;> rfl

/-- So is that of a list of keys to be defragmented, if each defragmentation reads the same
configuration. -/
theorem exec_handleDefragmentData (sh : Shared) (ps : PacketShared)
    (behind : List UInt8 → ℕ → UInt8) (args : CallArgs) (m_pData : List UInt8) (st : Storage)
    (lru : LRUCache) :
    (Calls.HandleDefragmentData sh ps behind m_pData).exec (Call.run sh args) (st, lru)
      = (HandleDefragmentData sh ps behind (fun _ => args.cfgs) st lru m_pData).map fun p =>
        (.send ⟨20, toLE 4 p.1.token.toNat ++ toLE 4 p.1.flags.toNat⟩, p.2) := by
  refine exec_forEachX (fun t s => ?_) m_pData st lru
  rw [Proc.exec, Call.run]
  cases s.1.DefragmentData sh args.cfgs s.2 t.X <;> rfl

/-- The loop over the records of a batch writes them one after another, and combines what the
writes return. -/
theorem exec_writeItems {sh : Shared} {args : CallArgs} {X : UInt64} (turns : List WriteTurn) :
    ∀ (i : ℕ) (writeStatus : UInt32) (s : Storage × LRUCache),
      (Proc.forEach (fun writeStatus (t : WriteTurn) =>
          Proc.call (Call.writeData X t.record.key t.record.data)
            fun status => .done (writeStatus ||| status.bits)) writeStatus turns).exec
          (Call.run sh args) s
        = (writeItems sh (fun _ => args.cfg) (fun _ => args.cfgs) X i (turns.map WriteTurn.record)
            s.1 s.2).map fun p =>
          (p.1.foldl (fun writeStatus status => writeStatus ||| status.bits) writeStatus, p.2) := by
  induction turns with
  | nil => exact fun _ _ _ => rfl
  | cons t turns ih =>
    intro i writeStatus s
    rw [Proc.forEach, Proc.exec_bind, Proc.exec, Call.run, List.map_cons, writeItems]
    cases s.1.WriteData sh args.cfg args.cfgs s.2 X t.record.key t.record.data with
    | none => rfl
    | some p =>
      obtain ⟨status, st, lru⟩ := p
      change (Proc.forEach _ (writeStatus ||| status.bits) turns).exec _ (st, lru) = _
      rw [ih (i + 1)]
      dsimp only [Option.bind_eq_bind, Option.bind_some]
      cases writeItems sh (fun _ => args.cfg) (fun _ => args.cfgs) X (i + 1)
        (turns.map WriteTurn.record) st lru <;> rfl

/-- The handler of a batch is the function on the storage, if all its writes read the same
configuration. -/
theorem exec_handleWriteDataNum (sh : Shared) (ps : PacketShared)
    (behind : List UInt8 → ℕ → UInt8) (args : CallArgs) (m_pData : List UInt8) (st : Storage)
    (lru : LRUCache) :
    (Calls.HandleWriteDataNum sh ps behind m_pData).exec (Call.run sh args) (st, lru)
      = (HandleWriteDataNum sh ps behind (fun _ => args.cfg) (fun _ => args.cfgs) st lru
          m_pData).map fun p =>
        (.send (writeDataNumResponse sh ps
          (p.1.writeStatus.foldl (fun writeStatus status => writeStatus ||| status.bits) 0)
          m_pData), p.2) := by
  rw [Calls.HandleWriteDataNum, HandleWriteDataNum]
  dsimp only
  rw [Proc.exec_bind, exec_writeItems _ 0]
  generalize writeItems sh _ _ _ 0 _ st lru = o
  cases o <;> rfl

end ClientSocketWorkerTask

end TransDB
