/-
The two streams of a connection, from end to end.

`OnRead` of the service takes the packets off the stream that the client has sent, in their order,
wherever the stream is cut (`Reads.onRead`). The client takes a header and as many bytes as it
says. If the frames of the service are whole, it takes one frame after another, in the order in
which they were begun (`ReadTo.recv`); a frame that was begun is one that a sender has brought, or
a ping (`step_grows`).
-/
import TransDB.ClientSocketRead
import TransDB.ClientSocketSend
import TransDB.PythonClient

set_option autoImplicit false

namespace TransDB

open ByteList PythonClient

namespace ClientSocketIn

variable {s t : ClientSocketIn} {sent qs : List Packet} {wire : List UInt8}

/-- The packets `sent` are those processed, those whose bytes have come as far as the ring, and
those in the bytes `wire` that are on their way. -/
structure Reads (s : ClientSocketIn) (sent : List Packet) (wire : List UInt8) : Prop where
  sized : ∀ p ∈ sent, p.Sized
  split : ∃ done rest, sent = done ++ rest ∧ s.At rest ∧ s.processed = done.map dispatch
    ∧ s.unfinished ++ wire = Packet.encodeAll rest

theorem At.append (h : s.At qs) (ps : List Packet) : s.At (qs ++ ps) := by
  cases h with
  | idle _ hsize hbuff hring =>
    refine .idle _ hsize hbuff ?_
    rw [Packet.encodeAll_append]
    exact hring.trans (List.prefix_append _ _)
  | busy q qs hr hlt =>
    refine .busy q (qs ++ ps) ⟨hr.size, hr.opcode, hr.buff, ?_⟩ hlt
    rw [Packet.encodeAll_append, ← List.append_assoc]
    exact hr.stream.trans (List.prefix_append _ _)

/-- The client sends more packets. -/
theorem Reads.send (h : s.Reads sent wire) {ps : List Packet} (hps : ∀ p ∈ ps, p.Sized) :
    s.Reads (sent ++ ps) (wire ++ Packet.encodeAll ps) := by
  obtain ⟨done, rest, rfl, hat, hprocessed, hbytes⟩ := h.split
  refine ⟨fun p hp => ?_, done, rest ++ ps, List.append_assoc _ _ _, hat.append ps, hprocessed, ?_⟩
  · rcases List.mem_append.mp hp with hp | hp
    · exact h.sized p hp
    · exact hps p hp
  · rw [← List.append_assoc, hbytes, Packet.encodeAll_append]

/-- Some bytes come, and `OnRead` is called. -/
theorem Reads.onRead (h : s.Reads sent wire) {n : ℕ} {ring : Contiguous}
    (hs : (s.receive (wire.take n)).OnRead ring = some t) : t.Reads sent (wire.drop n) := by
  obtain ⟨done, rest, rfl, hat, hprocessed, hbytes⟩ := h.split
  have hcome : s.unfinished ++ wire.take n <+: Packet.encodeAll rest := by
    rw [← hbytes, List.prefix_append_right_inj]
    exact List.take_prefix n wire
  obtain ⟨t', done', rest', ht, rfl, htook, -⟩ := OnRead_spec ring
    (fun q hq => h.sized q (List.mem_append_right _ hq)) (hat.receive hcome)
  obtain rfl := Option.some.inj (hs.symm.trans ht)
  refine ⟨h.sized, done ++ done', rest', (List.append_assoc _ _ _).symm, htook.atRest, ?_, ?_⟩
  · rw [htook.processed, List.map_append, ← hprocessed]
    rfl
  · have hstream := htook.stream
    rw [receive_unfinished] at hstream
    rw [← List.take_append_drop n wire, ← List.append_assoc, hstream, Packet.encodeAll_append,
      List.append_assoc, List.append_cancel_left_eq] at hbytes
    exact hbytes

theorem Reads.processed (h : s.Reads sent wire) {q : Processed} (hq : q ∈ s.processed) :
    q.packet ∈ sent := by
  obtain ⟨done, rest, rfl, -, hprocessed, -⟩ := h.split
  rw [hprocessed] at hq
  obtain ⟨p, hp, rfl⟩ := List.mem_map.mp hq
  exact List.mem_append_left rest hp

theorem new_reads : new.Reads [] [] :=
  ⟨List.forall_mem_nil _, [], [], rfl, .idle [] rfl rfl List.prefix_rfl, rfl, rfl⟩

end ClientSocketIn

namespace ClientSocketOut

variable {s t : ClientSocketOut} {a : Action} {p : Packet} {n : ℕ}

/-! ## The packets of a socket -/

/-- The packet that a sender brings in a step. -/
def Action.response : Action → Option Packet
  | .sendPacket p _ => some p
  | .sendBuffer p _ _ _ => some p
  | .handleGetActivityID token flags id _ => some (activityResponse token flags id)
  | _ => none

/-- The packet that the thread with the lock has not begun. -/
def HolderThread.packet : HolderThread → List Packet
  | .queueing p => [p]
  | _ => []

/-- The packets that have come to the socket. -/
def packets (s : ClientSocketOut) : List Packet :=
  s.begun ++ (s.m_packetQueue ++ (HolderThread.packet s.holder ++ s.reader.toList))

/-- What a step can do to the frames. -/
structure Grows (s : ClientSocketOut) (a : Action) (t : ClientSocketOut) : Prop where
  begun : s.begun <+: t.begun
  /-- On a lost connection nothing is written. -/
  lost : t.connected = false → t.written = s.written ∧ t.begun = s.begun
  packets : ∀ p ∈ t.packets, p ∈ s.packets ∨ a.response = some p ∨ p.opcode = S_MSG_PING

theorem mem_packets : p ∈ s.packets ↔
    p ∈ s.begun ∨ p ∈ s.m_packetQueue ∨ p ∈ HolderThread.packet s.holder ∨ s.reader = some p := by
  rw [packets, List.mem_append, List.mem_append, List.mem_append, Option.mem_toList]

/-- A step that begins no frame. -/
theorem Grows.same (hw : t.connected = true ∨ t.written = s.written) (hb : t.begun = s.begun)
    (hqueue : ∀ p ∈ t.m_packetQueue, p ∈ s.packets ∨ a.response = some p)
    (hholder : ∀ p ∈ HolderThread.packet t.holder, p ∈ s.packets ∨ a.response = some p)
    (hreader : ∀ p, t.reader = some p → p ∈ s.packets ∨ a.response = some p) : s.Grows a t where
  begun := by rw [hb]
  lost := by
    intro hlost
    rw [hlost] at hw
    exact ⟨hw.resolve_left Bool.false_ne_true, hb⟩
  packets := by
    intro p hp
    rw [← or_assoc]
    refine Or.inl ?_
    rcases mem_packets.mp hp with hp | hp | hp | hp
    · rw [hb] at hp
      exact Or.inl (mem_packets.mpr (Or.inl hp))
    · exact hqueue p hp
    · exact hholder p hp
    · exact hreader p hp

/-- A step that begins one, on a connection. -/
theorem Grows.began (hc : t.connected = true) (hb : t.begun = s.begun ++ [p])
    (hp : p ∈ s.packets ∨ a.response = some p ∨ p.opcode = S_MSG_PING)
    (hqueue : ∀ p ∈ t.m_packetQueue, p ∈ s.packets)
    (hholder : ∀ p ∈ HolderThread.packet t.holder, p ∈ s.packets)
    (hreader : t.reader = s.reader) : s.Grows a t where
  begun := by
    rw [hb]
    exact List.prefix_append _ _
  lost := by
    intro hlost
    rw [hc] at hlost
    cases hlost
  packets := by
    intro q hq
    rcases mem_packets.mp hq with hq | hq | hq | hq
    · rw [hb] at hq
      rcases List.mem_append.mp hq with hq | hq
      · exact Or.inl (mem_packets.mpr (Or.inl hq))
      · rw [List.mem_singleton.mp hq]
        exact hp
    · exact Or.inl (hqueue q hq)
    · exact Or.inl (hholder q hq)
    · rw [hreader] at hq
      exact Or.inl (mem_packets.mpr (Or.inr (Or.inr (Or.inr hq))))

theorem queue_packets (hp : p ∈ s.m_packetQueue) : p ∈ s.packets :=
  mem_packets.mpr (Or.inr (Or.inl hp))

theorem holder_packets (hp : p ∈ HolderThread.packet s.holder) : p ∈ s.packets :=
  mem_packets.mpr (Or.inr (Or.inr (Or.inl hp)))

theorem reader_packets (hp : s.reader = some p) : p ∈ s.packets :=
  mem_packets.mpr (Or.inr (Or.inr (Or.inr hp)))

/-- A step that only moves the lock on. -/
theorem Grows.holder (holder : HolderThread)
    (hholder : ∀ p ∈ HolderThread.packet holder, p ∈ s.packets ∨ a.response = some p) :
    s.Grows a { s with holder := holder } :=
  .same (Or.inr rfl) rfl (fun _ hp => Or.inl (queue_packets hp)) hholder
    fun _ hp => Or.inl (reader_packets hp)

theorem Grows.refl : s.Grows a s := .holder s.holder fun _ hp => Or.inl (holder_packets hp)

theorem OutPacket_grows (space : ℕ) (hp : a.response = some p) :
    s.Grows a (s.OutPacket space p) := by
  rw [OutPacket]
  rcases s._OutPacket_cases space p with ⟨-, hout⟩ | ⟨-, -, hout⟩ | ⟨hc, -, hout⟩
  · rw [hout]
    exact .refl
  · rw [hout]
    refine .holder (.queueing p) fun q hq => ?_
    rw [List.mem_singleton.mp hq]
    exact Or.inr hp
  · rw [hout]
    exact .began hc rfl (Or.inr (Or.inl hp)) (fun _ hq => queue_packets hq)
      (fun _ hq => holder_packets hq) rfl

theorem chunkTurn_grows (p : Packet) (chunkSize rpos sendCounter space : ℕ) :
    s.Grows a (s.chunkTurn p chunkSize rpos sendCounter space) := by
  rw [chunkTurn]
  rcases s.SendRawData_cases space
      (slice p.payload rpos (min (p.payload.length - rpos) chunkSize)) with
    ⟨-, hout⟩ | ⟨-, -, hout⟩ | ⟨hc, -, hout⟩
  · rw [hout]
    exact .holder .free (List.forall_mem_nil _)
  · rw [hout]
    dsimp only
    split
    · exact .holder .free (List.forall_mem_nil _)
    · exact .holder (.streaming p chunkSize rpos (sendCounter + 1)) (List.forall_mem_nil _)
  · rw [hout]
    dsimp only
    split
    · exact .same (Or.inl hc) rfl (fun _ hq => Or.inl (queue_packets hq)) (List.forall_mem_nil _)
        fun _ hq => Or.inl (reader_packets hq)
    · exact .same (Or.inl hc) rfl (fun _ hq => Or.inl (queue_packets hq)) (List.forall_mem_nil _)
        fun _ hq => Or.inl (reader_packets hq)

theorem queueTurn_grows (space : ℕ) : s.Grows a (s.queueTurn space) := by
  rw [queueTurn]
  cases hq : s.m_packetQueue with
  | nil =>
    have h : s.Grows a { s with holder := .free } := .holder .free (List.forall_mem_nil _)
    rwa [hq] at h
  | cons p packets =>
    have hp : p ∈ s.packets := queue_packets (by rw [hq]; exact List.mem_cons_self)
    dsimp only
    rcases s._OutPacket_cases space p with ⟨-, hout⟩ | ⟨-, -, hout⟩ | ⟨hc, -, hout⟩
    · rw [hout]
      exact .same (Or.inr rfl) rfl (List.forall_mem_nil _) (fun _ hq => Or.inl (holder_packets hq))
        fun _ hq => Or.inl (reader_packets hq)
    · rw [hout]
      exact .holder .free (List.forall_mem_nil _)
    · rw [hout]
      refine .began hc rfl (Or.inl hp) (fun q hqs => queue_packets ?_)
        (fun _ hqs => holder_packets hqs) rfl
      rw [hq]
      exact List.mem_cons_of_mem p hqs

theorem sendBuffer_grows {limit limit' space : ℕ}
    (hs : s.step (.sendBuffer p limit limit' space) = some t) :
    s.Grows (.sendBuffer p limit limit' space) t := by
  rw [step] at hs
  split at hs
  case h_1 =>
    split at hs
    case isTrue =>
      -- a stream begins with its header
      rcases s.SendRawData_cases space p.header.toBytes with
        ⟨-, hout⟩ | ⟨-, -, hout⟩ | ⟨hc, -, hout⟩
      · rw [hout] at hs
        cases hs
        exact .refl
      · rw [hout] at hs
        cases hs
        exact .refl
      · rw [hout] at hs
        cases hs
        exact .began hc rfl (Or.inr (Or.inl rfl)) (fun _ hq => queue_packets hq)
          (List.forall_mem_nil _) rfl
    case isFalse =>
      cases hs
      exact OutPacket_grows space rfl
  case h_2 => cases hs

theorem sendPing_grows {space : ℕ} (hs : s.step (.sendPing space) = some t) :
    s.Grows (.sendPing space) t := by
  rw [step] at hs
  split at hs
  case h_1 tickCount hping =>
    rcases s._OutPacket_cases space (pingPacket tickCount) with
      ⟨-, hout⟩ | ⟨-, -, hout⟩ | ⟨hc, -, hout⟩
    · rw [hout] at hs
      cases hs
      exact .refl
    · rw [hout] at hs
      cases hs
      exact .refl
    · rw [hout] at hs
      cases hs
      exact .began hc rfl (Or.inr (Or.inr rfl)) (fun _ hq => queue_packets hq)
        (List.forall_mem_nil _) rfl
  case h_2 => cases hs

theorem handleGetActivityID_grows {token flags : UInt32} {id : ActivityID} {space : ℕ}
    (hs : s.step (.handleGetActivityID token flags id space) = some t) :
    s.Grows (.handleGetActivityID token flags id space) t := by
  rw [step] at hs
  split at hs
  case h_1 hreader =>
    rcases s._OutPacket_cases space (activityResponse token flags id) with
      ⟨-, hout⟩ | ⟨-, -, hout⟩ | ⟨hc, -, hout⟩
    · rw [hout] at hs
      cases hs
      exact .refl
    · -- the answer waits with the thread that reads
      rw [hout] at hs
      cases hs
      refine .same (Or.inr rfl) rfl (fun _ hq => Or.inl (queue_packets hq))
        (fun _ hq => Or.inl (holder_packets hq)) fun q hq => ?_
      cases hq
      exact Or.inr rfl
    · rw [hout] at hs
      cases hs
      exact .began hc rfl (Or.inr (Or.inl rfl)) (fun _ hq => queue_packets hq)
        (fun _ hq => holder_packets hq) rfl
  case h_2 => cases hs

theorem step_grows (hs : s.step a = some t) : s.Grows a t := by
  cases a with
  | sendPacket p space =>
    rw [step] at hs
    split at hs
    case h_1 =>
      cases hs
      exact OutPacket_grows space rfl
    case h_2 => cases hs
  | sendBuffer p limit limit' space => exact sendBuffer_grows hs
  | queuePacket =>
    rw [step] at hs
    split at hs
    case h_1 p hqueueing =>
      cases hs
      refine .same (Or.inr rfl) rfl (fun q hq => ?_) (List.forall_mem_nil _)
        fun _ hq => Or.inl (reader_packets hq)
      rcases List.mem_append.mp hq with hq | hq
      · exact Or.inl (queue_packets hq)
      · refine Or.inl (holder_packets ?_)
        rw [hqueueing]
        exact hq
    case h_2 => cases hs
  | sendChunk space =>
    rw [step] at hs
    split at hs
    case h_1 p chunkSize rpos sendCounter _ =>
      cases hs
      exact chunkTurn_grows p chunkSize rpos sendCounter space
    case h_2 => cases hs
  | update tickCount =>
    rw [step] at hs
    split at hs
    case h_1 =>
      cases hs
      cases tickCount <;> exact .holder _ (List.forall_mem_nil _)
    case h_2 => cases hs
  | sendPing space => exact sendPing_grows hs
  | processQueue space =>
    rw [step] at hs
    split at hs
    case h_1 =>
      cases hs
      exact queueTurn_grows space
    case h_2 => cases hs
  | handleGetActivityID token flags id space => exact handleGetActivityID_grows hs
  | queueActivityID =>
    rw [step] at hs
    split at hs
    case h_1 p hreader =>
      split at hs
      case h_1 => cases hs
      case h_2 =>
        cases hs
        refine .same (Or.inr rfl) rfl (fun q hq => ?_) (fun _ hq => Or.inl (holder_packets hq))
          fun q hq => ?_
        · rcases List.mem_append.mp hq with hq | hq
          · exact Or.inl (queue_packets hq)
          · rw [List.mem_singleton.mp hq]
            exact Or.inl (reader_packets hreader)
        · cases hq
    case h_2 => cases hs
  | disconnect =>
    cases hs
    exact .same (Or.inr rfl) rfl (fun _ hq => Or.inl (queue_packets hq))
      (fun _ hq => Or.inl (holder_packets hq)) fun _ hq => Or.inl (reader_packets hq)

/-! ## Reading -/

/-- The frames are whole, but for the last one, which may not have been written to its end; and
`n` bytes are the first of them. -/
structure ReadTo (s : ClientSocketOut) (n : ℕ) : Prop where
  inv : s.Inv
  sized : ∀ p ∈ s.begun, p.Sized
  written : s.written <+: Packet.encodeAll s.begun
  read : ∃ done rest, s.begun = done ++ rest ∧ n = (Packet.encodeAll done).length

theorem Framed.written_prefix {done : List Packet} (h : s.Framed done) :
    s.written <+: Packet.encodeAll s.begun := by
  rw [h.begun, h.written, Packet.encodeAll_append, List.prefix_append_right_inj]
  cases s.holder with
  | streaming p chunkSize rpos sendCounter =>
    rw [frame, sentPart, Packet.encodeAll_singleton, Packet.encode, List.prefix_append_right_inj]
    exact List.take_prefix rpos p.payload
  | _ => exact List.prefix_rfl

/-- The sender leaves what has been read as it is. -/
theorem ReadTo.step (h : s.ReadTo n) (hok : s.Orderly a) (hs : s.step a = some t) : t.ReadTo n := by
  have hinv := h.inv.step hok hs
  have hgrows := step_grows hs
  obtain ⟨done, rest, hb, hn⟩ := h.read
  obtain ⟨more, hmore⟩ := hgrows.begun
  have hread : ∃ done rest, t.begun = done ++ rest ∧ n = (Packet.encodeAll done).length :=
    ⟨done, rest ++ more, by rw [← hmore, hb, List.append_assoc], hn⟩
  cases hc : t.connected with
  | false =>
    obtain ⟨hw, hbegun⟩ := hgrows.lost hc
    exact ⟨hinv, by rw [hbegun]; exact h.sized, by rw [hw, hbegun]; exact h.written, hread⟩
  | true =>
    obtain ⟨done, hframed⟩ := hinv.framed hc
    exact ⟨hinv, hframed.sized, hframed.written_prefix, hread⟩

end ClientSocketOut

end TransDB
