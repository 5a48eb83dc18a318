/-
A report of the free space, from the request to the client.

The handler puts a task into the queue of the disk writer; the storage thread copies the
map and starts a thread for it, which sends the report, whatever has happened to the store
since. So a report has an origin: a request that a worker has taken, and a moment between
then and now at which the map was copied (`Copied`). At such a moment the storage thread is
not in `Process`, so nothing waits to be freed, and the file is the free space and the
records of the index file. The client reads a report that adds up (`fragment_answered`).
-/
import TransDB.ClientSocketWorkerHistory

set_option autoImplicit false

namespace TransDB

open ByteList ClientSocketWorkerTask

namespace Service

variable {E : Setup} {s t : Service} {a : Step} {b : Option Action} {e : Option Seen}

/-! ## Where a report comes from -/

/-- The request has been taken by a worker, and its handler has ended with the task. -/
structure Queued (E : Setup) (es : List Seen) (r : ClientSocketTaskData) (task : DiskWriterTask) :
    Prop where
  ended : ∃ w, .ended w r none ∈ es
  socket : r.m_socketID = task.m_socketID
  handler : ∃ h calls, handler E r = some h
    ∧ h.After calls (.done (.queueTask task.m_eTaskType task.m_rData))

theorem Queued.append {es fs : List Seen} {r : ClientSocketTaskData} {task : DiskWriterTask}
    (h : Queued E es r task) : Queued E (es ++ fs) r task := by
  obtain ⟨w, hw⟩ := h.ended
  exact ⟨⟨w, List.mem_append_left fs hw⟩, h.socket, h.handler⟩

/-- The request asks for a report, and the task is what its handler makes of it. -/
theorem Queued.getFreeSpace {es : List Seen} {r : ClientSocketTaskData} {task : DiskWriterTask}
    (h : Queued E es r task) (ht : task.m_eTaskType = .edtDumpFreeSpace) :
    r.m_opcode = 21
      ∧ Calls.HandleGetFreeSpace E.sh r.m_pData
        = .done (.queueTask .edtDumpFreeSpace task.m_rData) := by
  obtain ⟨hd, calls, hhd, hafter⟩ := h.handler
  rw [ht] at hafter
  have hsettles : Settles E r (.queueTask .edtDumpFreeSpace task.m_rData) :=
    (handler_settles hhd).after hafter
  have hop : r.m_opcode = 21 := by
    have hdue := hsettles.1
    rw [dueFor] at hdue
    split at hdue
    case isTrue =>
      have hopcode : r.m_opcode + 1 = 22 := congrArg Due.opcode (Multiset.singleton_inj.mp hdue)
      grind
    case isFalse => exact absurd hdue.symm (Multiset.singleton_ne_zero _)
  have hrow := handler_dispatched hhd
  rw [hop] at hrow
  cases hrow
  exact ⟨hop, (Proc.after_done.mp hafter).2.symm⟩

variable {ok : Service → Step → Service → Prop}

/-- The map was copied at a moment of the run. -/
def Copied (E : Setup) (ok : Service → Step → Service → Prop) (s : Service) (es : List Seen)
    (d : DumpFreeSpaceThread) : Prop :=
  ∃ r before late u, es = before ++ late
    ∧ Queued E before r ⟨d.m_socketID, .edtDumpFreeSpace, d.m_rData⟩
    ∧ (service E).Shows ok (seen E) s before u ∧ u.sys.disk = .idle
    ∧ d.m_dataFileSize = u.sys.store.m_dataFileSize ∧ d.m_rFreeSpace = u.sys.store.m_rFreeSpace

/-- What every state keeps of its tasks and reports. -/
structure Traced (E : Setup) (ok : Service → Step → Service → Prop) (s : Service) (t : Service)
    (es : List Seen) : Prop where
  tasks : ∀ task ∈ t.m_rDiskWriteTasks ++ t.rDiskWriteTasksProcess, ∃ r, Queued E es r task
  /-- `ProcessTasks` is not in the middle of `Process`. -/
  quiet : t.rDiskWriteTasksProcess ≠ [] → t.sys.disk = .idle
  dumps : ∀ d ∈ t.dumps, Copied E ok s es d

theorem afterCall_disk {sh : Shared} {u v : Sys} {w : ℕ} {args : CallArgs} {c : Call}
    (h : u.afterCall sh w args c = some v) : v.disk = u.disk := by
  have hworker : ∀ {f : LRUCache → Option (Storage × LRUCache)} {u v : Sys},
      u.worker w f = some v → v.disk = u.disk := by
    intro f u v hw
    obtain ⟨store, lru, -, rfl⟩ := Sys.worker_some hw
    rfl
  rw [Sys.afterCall] at h
  cases c with
  | deleteData x =>
    obtain ⟨u', hu', h⟩ := Option.bind_eq_some_iff.mp h
    cases h
    have hdisk : u'.disk = u.disk := hworker hu'
    exact hdisk
  | remove x =>
    dsimp only [Call.action] at h
    rw [Sys.step] at h
    split at h
    case isTrue =>
      cases h
      rfl
    case isFalse => cases h
  | getStats =>
    cases h
    rfl
  | getFileLogContent =>
    cases h
    rfl
  | readConfigFile =>
    cases h
    rfl
  | _ =>
    dsimp only [Call.action] at h
    rw [Sys.step] at h
    exact hworker h

theorem Copied.append {es fs : List Seen} {d : DumpFreeSpaceThread} (h : Copied E ok s es d) :
    Copied E ok s (es ++ fs) d := by
  obtain ⟨r, before, late, u, rfl, hd⟩ := h
  exact ⟨r, before, late ++ fs, u, List.append_assoc _ _ _, hd⟩

/-- Of the tasks none is new, and the reports are the same. -/
theorem Traced.keeps {u : Service} {es fs : List Seen} (h : Traced E ok s t es)
    (htasks : ∀ task ∈ u.m_rDiskWriteTasks ++ u.rDiskWriteTasksProcess,
      task ∈ t.m_rDiskWriteTasks ++ t.rDiskWriteTasksProcess)
    (hquiet : u.rDiskWriteTasksProcess ≠ [] → u.sys.disk = .idle)
    (hdumps : ∀ d ∈ u.dumps, d ∈ t.dumps) : Traced E ok s u (es ++ fs) where
  tasks task htask := by
    obtain ⟨r, hr⟩ := h.tasks task (htasks task htask)
    exact ⟨r, hr.append⟩
  quiet := hquiet
  dumps d hd := (h.dumps d (hdumps d hd)).append

theorem Traced.moved {u : Service} {es : List Seen} (h : Traced E ok s t es)
    (hr : Remembers E t es) (hshows : (service E).Shows ok (seen E) s es t)
    (hm : Moved E t b u e) : Traced E ok s u (es ++ e.toList) := by
  cases hm with
  | received q r hr' => exact h.keeps (fun _ ht => ht) h.quiet fun _ hd => hd
  | replied r id hr' => exact h.keeps (fun _ ht => ht) h.quiet fun _ hd => hd
  | ignored => exact h.keeps (fun _ ht => ht) h.quiet fun _ hd => hd
  | took w q r rest hw hq hqueue => exact h.keeps (fun _ ht => ht) h.quiet fun _ hd => hd
  | called w r c k v args sys hw hv hsys =>
    exact h.keeps (fun _ ht => ht) (fun hne => (afterCall_disk hsys).trans (h.quiet hne))
      fun _ hd => hd
  | ended w r o cfg hw ho =>
    refine ⟨fun task htask => ?_, h.quiet, fun d hd => (h.dumps d hd).append⟩
    rcases List.mem_append.mp htask with htask | htask
    · rcases List.mem_append.mp htask with htask | htask
      · obtain ⟨r', hr'⟩ := h.tasks task (List.mem_append_left _ htask)
        exact ⟨r', hr'.append⟩
      · obtain ⟨before, since, hd, -, -, hhd, hafter⟩ := hr w r _ hw
        cases o with
        | queueTask eTaskType rData =>
          obtain rfl := List.mem_singleton.mp htask
          exact ⟨r, ⟨w, List.mem_append_right _ List.mem_cons_self⟩, rfl, hd, _, hhd, hafter⟩
        | _ => cases htask
    · obtain ⟨r', hr'⟩ := h.tasks task (List.mem_append_right _ htask)
      exact ⟨r', hr'.append⟩
  | stored a sys hsys hseen hd =>
    exact h.keeps (fun _ ht => ht) (fun hne => (hd hne).trans (h.quiet hne)) fun _ hd => hd
  | tookTasks hp hd =>
    refine h.keeps (fun task ht => ?_) (fun _ => hd) fun _ hd => hd
    exact List.mem_append_left _ ht
  | dumped task rest hp ht =>
    refine ⟨fun task' htask => ?_, fun hne => h.quiet ?_, fun d hd => ?_⟩
    · have hmem : task' ∈ t.m_rDiskWriteTasks ++ t.rDiskWriteTasksProcess := by
        rw [hp]
        rcases List.mem_append.mp htask with htask | htask
        · exact List.mem_append_left _ htask
        · exact List.mem_append_right _ (List.mem_cons_of_mem task htask)
      obtain ⟨r, hr'⟩ := h.tasks task' hmem
      exact ⟨r, hr'.append⟩
    · rw [hp]
      exact List.cons_ne_nil task rest
    · rcases List.mem_append.mp hd with hd | hd
      · exact (h.dumps d hd).append
      · obtain rfl := List.mem_singleton.mp hd
        obtain ⟨r, hr'⟩ := h.tasks task (by rw [hp]; exact List.mem_append_right _ List.mem_cons_self)
        have hquiet := h.quiet (by rw [hp]; exact List.cons_ne_nil task rest)
        have hdump : Queued E es r ⟨task.m_socketID, .edtDumpFreeSpace, task.m_rData⟩ := by
          rw [← ht]
          exact hr'
        exact ⟨r, es, none.toList, t, rfl, hdump, hshows, hquiet, rfl, rfl⟩
  | defragmented task rest order sys hp hd ht hsys =>
    obtain ⟨-, -, rfl⟩ := Sys.step_defragmentFreeSpace hsys
    refine h.keeps (fun task' htask => ?_) (fun hne => h.quiet ?_) fun _ hd => hd
    · rw [hp]
      rcases List.mem_append.mp htask with htask | htask
      · exact List.mem_append_left _ htask
      · exact List.mem_append_right _ (List.mem_cons_of_mem task htask)
    · rw [hp]
      exact List.cons_ne_nil task rest
  | sentDefragmented m_socketID m_rData hd => exact h.keeps (fun _ ht => ht) h.quiet fun _ hd => hd
  | sentDump i d cfg hi =>
    exact h.keeps (fun _ ht => ht) h.quiet fun d' hd' => List.mem_of_mem_eraseIdx hd'

theorem shows_traced {es : List Seen} (hs : Idle s)
    (h : (service E).Shows ok (seen E) s es t) : Traced E ok s t es := by
  have hrun := h.invariant (fun t es => (service E).Shows ok (seen E) s es t ∧ Traced E ok s t es)
    ?_ ?_
  · exact hrun.2
  · rintro u es a v ⟨hshows, htraced⟩ hok hstep
    exact ⟨.tail u v a es hshows hok hstep,
      htraced.moved (reach_remembers hs hshows) hshows (step_moved hstep)⟩
  · refine ⟨.refl, fun task ht => ?_, fun hne => absurd hs.process hne, fun d hd => ?_⟩
    · rw [hs.tasks, hs.process] at ht
      cases ht
    · rw [hs.dumps] at hd
      cases hd

/-! ## What the client reads -/

/-- The opcode of a response that is sent for a task of the disk writer. -/
def Seen.response : Seen → Option (UInt64 × UInt16)
  | .completed m_socketID p => some (m_socketID, p.opcode)
  | _ => none

theorem Seen.response_eq_some {e : Seen} {m_socketID : UInt64} {opcode : UInt16}
    (h : e.response = some (m_socketID, opcode)) :
    ∃ p, e = .completed m_socketID p ∧ p.opcode = opcode := by
  cases e with
  | completed m_socketID' p =>
    cases h
    exact ⟨p, rfl, rfl⟩
  | _ => cases h

/-- A report that is sent is a copy of the map. -/
theorem completed_copied {es pre post : List Seen} {m_socketID : UInt64} {p : Packet}
    (hs : Idle s) (h : (service E).Shows ok (seen E) s es t)
    (hes : es = pre ++ .completed m_socketID p :: post) (hop : p.opcode = 22) :
    ∃ d cfg, p = dumpPacket E cfg d ∧ d.m_socketID = m_socketID ∧ Copied E ok s pre d := by
  obtain ⟨u, a, v, hpre, -, hstep, hseen, -⟩ := h.split hes
  have hm := step_moved hstep
  rw [hseen] at hm
  generalize storeStep u a = b at hm
  cases hm with
  | sentDefragmented _ m_rData hd =>
    have hother : (30 : UInt16) = 22 := hop
    exact absurd hother (by decide)
  | sentDump i d cfg hi =>
    exact ⟨d, cfg, rfl, rfl, (shows_traced hs hpre).dumps d (List.mem_of_getElem? hi)⟩

open PythonClient

/-- What the handler hands on begins with the token of the request. -/
theorem handleGetFreeSpace_token {r : ClientSocketTaskData} {rData : List UInt8}
    (h : Calls.HandleGetFreeSpace E.sh r.m_pData = .done (.queueTask .edtDumpFreeSpace rData)) :
    ∃ rest, rData = tokenOf E r ++ rest := by
  cases h
  exact ⟨_, List.append_assoc _ _ _⟩

/-- What it hands on of the request of the client. -/
theorem handleGetFreeSpace_fragment {zlib : Zlib} {token : UInt32} {rData : List UInt8}
    (h : Calls.HandleGetFreeSpace E.sh (Request.fragment.packet zlib token).payload
      = .done (.queueTask .edtDumpFreeSpace rData)) :
    rData = toLE 4 token.toNat ++ toLE 4 0 ++ toLE 4 1 := by
  have hpayload : (Request.fragment.packet zlib token).payload
      = toLE 4 token.toNat ++ (toLE 4 0 ++ toLE 4 1) := List.append_assoc _ _ _
  rw [hpayload, Calls.HandleGetFreeSpace, Blman.bbuffRead_append E.sh _ _ (length_toLE 4 _)] at h
  dsimp only at h
  rw [Blman.bbuffRead_append E.sh _ _ (length_toLE 4 _)] at h
  dsimp only at h
  rw [bbuffRead_whole (length_toLE 4 1)] at h
  cases h
  rfl

/-- The short report, as the client decodes it. -/
theorem dumpPacket_decodes {zlib : Zlib} (hzlib : zlib.Inverts E.ps)
    (hgzip : E.ps.ePF_COMPRESSED = GZIP) (hfull : E.eSFSDF_FULL ≠ 1) {cfg : CompressCfg}
    {token : UInt32} {d : DumpFreeSpaceThread}
    (hd : d.m_rData = toLE 4 token.toNat ++ toLE 4 0 ++ toLE 4 1)
    (hfits : Fits E.ps cfg (limit64 cfg) 8
      (d.m_rFreeSpace.GetFreeSpaceDump d.m_dataFileSize false)) :
    socket_run zlib (dumpPacket E cfg d).encode
      = some (token, d.m_rFreeSpace.GetFreeSpaceDump d.m_dataFileSize false) := by
  have htoken : slice d.m_rData 0 4 = toLE 4 token.toNat := by
    rw [hd, List.append_assoc]
    exact slice_append [] _ _ 0 4 rfl (length_toLE _ _).symm
  have hflags : slice d.m_rData 4 4 = toLE 4 0 := by
    rw [hd]
    exact slice_append _ _ _ 4 4 (length_toLE _ _).symm (length_toLE _ _).symm
  have hdumpFlags : slice d.m_rData 8 4 = toLE 4 1 := by
    have hslice := slice_append (toLE 4 token.toNat ++ toLE 4 0) (toLE 4 1) [] 8 4
      (by rw [List.length_append, length_toLE, length_toLE]) (length_toLE _ _).symm
    rwa [List.append_nil, ← hd] at hslice
  have hshort : decide (UInt32.ofNat (ofLE (toLE 4 1)) = E.eSFSDF_FULL) = false :=
    decide_eq_false fun heq => hfull (heq.symm.trans (by decide))
  have hflag : UInt32.ofNat (ofLE (toLE 4 0)) ≠ GZIP := by decide
  rw [dumpPacket, htoken, hflags, hdumpFlags, hshort]
  exact (sendData_decodes_iff hzlib hgzip (length_toLE _ _) (by decide) rfl fun _ => hflag).mpr hfits

/-- The data are a report of the free space of the store: how many regions there are of each
length, which make up the file with the records of the index file. -/
def Reports (st : Storage) (data : List UInt8) : Prop :=
  ∃ blocks, inspectFreeSpaceFragment data = some (st.m_dataFileSize.toNat, blocks.length, blocks)
    ∧ (∀ len count : ℕ, (len, count) ∈ blocks ↔ 0 < count
      ∧ (FreeSpaceBlockMap.regions st.m_rFreeSpace).countP (fun r => r.len = (len : Int)) = count)
    ∧ (listed blocks : Int)
      + ((IndexBlock.fileEntries 0 st.files.index).map fun e => e.2.region.len).sum
      = st.m_dataFileSize

/-- The response is the answer to a request of the client; it says what there was at a moment
after the request was taken. -/
def Answered (E : Setup) (s : Service) (pre : List Seen) (m_socketID : UInt64) (p : Packet) : Prop :=
  ∃ w r before late u cfg, pre = before ++ late ∧ .ended w r none ∈ before ∧ r.m_opcode = 21
    ∧ r.m_socketID = m_socketID ∧ p.payload.take 4 = tokenOf E r
    ∧ (service E).Shows (InStore Sys.Small) (seen E) s before u
    ∧ ∀ zlib token, zlib.Inverts E.ps →
      r = taskOf m_socketID (Request.fragment.packet zlib token) →
      u.sys.store.m_dataFileSize < 2 ^ 63 →
      Fits E.ps cfg (limit64 cfg) 8
        (u.sys.store.m_rFreeSpace.GetFreeSpaceDump u.sys.store.m_dataFileSize false) →
      ∃ data, socket_run zlib p.encode = some (token, data) ∧ Reports u.sys.store data

/-- **A report of the free space adds up**, whatever has been done to the store while it was on
its way. -/
theorem fragment_answered {es pre post : List Seen} {m_socketID : UInt64} {p : Packet}
    (hidle : Idle s) (hreach : (Sys.server E.sh).Reach Sys.Small s.sys)
    (h : (service E).Shows (InStore Sys.Small) (seen E) s es t)
    (hes : es = pre ++ .completed m_socketID p :: post) (hop : p.opcode = 22)
    (hfull : E.eSFSDF_FULL ≠ 1) (hgzip : E.ps.ePF_COMPRESSED = GZIP) :
    Answered E s pre m_socketID p := by
  obtain ⟨d, cfg, rfl, rfl, r, before, late, u, rfl, hqueued, hu, hdisk, hsize, hmap⟩ :=
    completed_copied hidle h hes hop
  obtain ⟨w, hw⟩ := hqueued.ended
  obtain ⟨hopcode, hhandler⟩ := hqueued.getFreeSpace rfl
  obtain ⟨rest, htoken⟩ := handleGetFreeSpace_token hhandler
  have htoken : d.m_rData = tokenOf E r ++ rest := htoken
  have hheader := (@dumpPacket_header E d cfg (by
    rw [htoken, List.length_append, length_tokenOf]
    exact Nat.le_add_right 4 _)).2
  rw [htoken, take_tokenOf] at hheader
  refine ⟨w, r, before, late, u, cfg, rfl, hw, hopcode, hqueued.socket, hheader, hu, ?_⟩
  intro zlib token hzlib hr hlt hfits
  obtain ⟨lost, hinv⟩ := Sys.reach_inv (hreach.steps (projects.shows hu).steps)
  rw [Sys.Inv, hdisk] at hinv
  have hinv : StorageInv E.sh u.sys.store [] [] lost := hinv
  have ht := hinv.tiles
  rw [List.nil_append] at ht
  obtain ⟨blocks, hread, hcount, hsum⟩ := inspect_tiled hinv.data.noEmpty ht
    hinv.data.size_nonneg hlt
  rw [hr] at hhandler
  rw [← hsize, ← hmap] at hfits
  refine ⟨_, dumpPacket_decodes hzlib hgzip hfull
    (@handleGetFreeSpace_fragment E zlib token _ hhandler) hfits, blocks, ?_, hcount, ?_⟩
  · rw [hsize, hmap]
    exact hread
  · rw [List.map_map] at hsum
    exact hsum

/-- A write, and a report that is sent after it. -/
theorem fragment_answered_once : ∃ sys es t pre post p, Sys.Started sys
    ∧ (service twoWorkers).Shows (InStore Sys.Small) (seen twoWorkers) (fresh sys) es t
    ∧ es = pre ++ .completed 6 p :: post ∧ p.opcode = 22
    ∧ Answered twoWorkers (fresh sys) pre 6 p := by
  have hrun : (Sys.fresh.bind fun sys => (service twoWorkers).observe (seen twoWorkers)
      (fun s a => (s.storeStep a).all (Sys.smallTest s.sys)) (fresh sys)
      [sent 6 .fragment, .take 0, .finish 0 ⟨5, 1024⟩, .takeTasks, .runTask [],
        sent 5 (.writeData 7 1 [1, 2, 3]), .take 0, calls 0, .finish 0 ⟨5, 1024⟩,
        .sendDump 0 ⟨5, 1024⟩]).any
      (fun p => p.1.any fun e => decide (e.response = some (6, 22))) = true := by
    decide +kernel
  have htest : ∀ s a t, (s.storeStep a).all (Sys.smallTest s.sys) = true →
      (service twoWorkers).step s a = some t → InStore Sys.Small s a t :=
    fun s a t h _ b hb => Sys.small_of_test s.sys b t.sys ((Option.all_eq_true _ _).mp h b hb)
  obtain ⟨sys, es, t, hs, hshows, hp⟩ := exists_served twoWorkers _ htest hrun
  obtain ⟨e, he, hresponse⟩ := List.any_eq_true.mp hp
  obtain ⟨p, rfl, hop⟩ := Seen.response_eq_some (of_decide_eq_true hresponse)
  obtain ⟨pre, post, hes⟩ := List.append_of_mem he
  exact ⟨sys, es, t, pre, post, p, hs, hshows, hes, hop,
    fragment_answered (idle_fresh sys) (.init sys hs) hshows hes hop (by decide) rfl⟩

end Service

end TransDB
