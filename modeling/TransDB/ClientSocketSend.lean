/-
The stream of frames to a client.

`ClientSocketHolder` sends under its lock: small packets in one step, large ones as a
header and chunks, with waits between when the write buffer is full. `Update` sends the
pings and the packets that had to be queued under the same lock. The socket's own
thread does not take it when it answers a request for the activity ID, so its frame can
go out between two chunks; and a stream that has waited a hundred times for room is
given up in the middle, on a socket that stays connected.

Each `_OutPacket` and each `SendRawData` is one step of the machine. `GetSpace` of the
missing `shared/` code is left open: every step brings its own answer, and `BurstSend`
of what there is space for succeeds.
-/
import TransDB.Packet
import TransDB.Machine

set_option autoImplicit false

namespace TransDB

open ByteList

/-- `OUTPACKET_RESULT` -/
inductive OUTPACKET_RESULT
  | SUCCESS
  | NO_ROOM_IN_BUFFER
  | NOT_CONNECTED
  | SOCKET_ERROR
  deriving DecidableEq, Repr

/-- What the thread that has the lock of `ClientSocketHolder` is doing. -/
inductive HolderThread
  /-- The lock is free. -/
  | free
  /-- `OutPacket`, which has found no room and will queue the packet. -/
  | queueing (p : Packet)
  /-- The loop of `SendPacket` over the chunks. -/
  | streaming (p : Packet) (chunkSize rpos sendCounter : ℕ)
  /-- The loop of `SendPing`. -/
  | pinging (tickCount : UInt64)
  /-- The loop of `ProcessQueue`, which has the lock of the queue. -/
  | processing
  deriving DecidableEq, Repr

/-- The fields of `ClientSocket` that the senders work on, and where they are. -/
structure ClientSocketOut where
  connected : Bool
  /-- All bytes that have been put into `m_writeBuffer`. -/
  written : List UInt8
  m_packetQueue : List Packet
  holder : HolderThread
  /-- The packet that the socket's own thread will queue. -/
  reader : Option Packet
  /-- The frames whose header has been put into `m_writeBuffer`, in this order. -/
  begun : List Packet
  deriving DecidableEq, Repr

namespace ClientSocketOut

/-! ## The functions of `ClientSocket` -/

/-- `ClientSocket::_OutPacket`, when `GetSpace` gives `space`. With room in the buffer
`BurstSend` gives no socket error. -/
def _OutPacket (s : ClientSocketOut) (space : ℕ) (p : Packet) :
    OUTPACKET_RESULT × ClientSocketOut :=
  if s.connected = false then (.NOT_CONNECTED, s)
  else if space < p.payload.length + sizeofPackerHeader then (.NO_ROOM_IN_BUFFER, s)
  else (.SUCCESS, { s with written := s.written ++ p.encode, begun := s.begun ++ [p] })

/-- `ClientSocket::SendRawData` -/
def SendRawData (s : ClientSocketOut) (space : ℕ) (dataChunk : List UInt8) :
    OUTPACKET_RESULT × ClientSocketOut :=
  if s.connected = false then (.NOT_CONNECTED, s)
  else if space < dataChunk.length then (.NO_ROOM_IN_BUFFER, s)
  else (.SUCCESS, { s with written := s.written ++ dataChunk })

/-- `ClientSocket::OutPacket` under the lock, up to the push. -/
def OutPacket (s : ClientSocketOut) (space : ℕ) (p : Packet) : ClientSocketOut :=
  match s._OutPacket space p with
  | (.SUCCESS, t) => t
  | (.NO_ROOM_IN_BUFFER, t) => { t with holder := .queueing p }
  | (_, t) => t

/-- `S_MSG_PING` -/
def S_MSG_PING : UInt16 := 10

/-- `S_MSG_GET_ACTIVITY_ID` -/
def S_MSG_GET_ACTIVITY_ID : UInt16 := 16

/-- `g_cfg.ActivityID`, as it is streamed. -/
abbrev ActivityID := { id : List UInt8 // id.length ≤ 32 }

/-- The response of `HandleGetActivityID`. -/
def activityResponse (token flags : UInt32) (id : ActivityID) : Packet where
  opcode := S_MSG_GET_ACTIVITY_ID
  payload := toLE 4 token.toNat ++ toLE 4 flags.toNat ++ id.val

/-- The packet of `SendPing`. -/
def pingPacket (tickCount : UInt64) : Packet where
  opcode := S_MSG_PING
  payload := toLE 8 tickCount.toNat

/-! ## The machine -/

/-- The atomic steps; `space` is what `GetSpace` gives in the step. -/
inductive Action
  /-- `ClientSocketHolder::SendPacket` of a `StackPacket`. -/
  | sendPacket (p : Packet) (space : ℕ)
  /-- `ClientSocketHolder::SendPacket` of a buffer: the test of its size, and the direct
  path or the header of a stream. The two numbers are what the test and the size of the
  chunks read as `SocketWriteBufferSize`. -/
  | sendBuffer (p : Packet) (SocketWriteBufferSize SocketWriteBufferSize' space : ℕ)
  /-- The push of `OutPacket` under the lock. -/
  | queuePacket
  /-- One turn over the chunks. -/
  | sendChunk (space : ℕ)
  /-- `ClientSocketHolder::Update` takes the lock, with a ping or without. -/
  | update (tickCount : Option UInt64)
  /-- One turn of `SendPing`. -/
  | sendPing (space : ℕ)
  /-- One turn of `ProcessQueue`. -/
  | processQueue (space : ℕ)
  /-- `HandleGetActivityID` in the socket's own thread, up to the push. -/
  | handleGetActivityID (token flags : UInt32) (id : ActivityID) (space : ℕ)
  /-- Its push. -/
  | queueActivityID
  /-- The connection is lost. -/
  | disconnect

/-- Whether a step belongs to the holder's threads, which take its lock. -/
def Action.ofHolder : Action → Bool
  | .handleGetActivityID _ _ _ _ => false
  | _ => true

/-- One turn over the chunks of a stream. -/
def chunkTurn (s : ClientSocketOut) (p : Packet) (chunkSize rpos sendCounter space : ℕ) :
    ClientSocketOut :=
  let sendDataSize := min (p.payload.length - rpos) chunkSize
  match s.SendRawData space (slice p.payload rpos sendDataSize) with
  | (.SUCCESS, t) =>
    --send is ok continue with sending
    if rpos + sendDataSize < p.payload.length then
      { t with holder := .streaming p chunkSize (rpos + sendDataSize) sendCounter }
    else { t with holder := .free }
  | (.NO_ROOM_IN_BUFFER, t) =>
    if 100 < sendCounter then { t with holder := .free }
    else { t with holder := .streaming p chunkSize rpos (sendCounter + 1) }
  --error interupt sending
  | (_, t) => { t with holder := .free }

/-- One turn of `ProcessQueue`. -/
def queueTurn (s : ClientSocketOut) (space : ℕ) : ClientSocketOut :=
  match s.m_packetQueue with
  | [] => { s with holder := .free }
  | p :: packets =>
    match s._OutPacket space p with
    | (.SUCCESS, t) => { t with m_packetQueue := packets }
    --still connected
    | (.NO_ROOM_IN_BUFFER, t) => { t with holder := .free }
    --kill everything in the buffer
    | (_, t) => { t with m_packetQueue := [] }

/-- The steps; `none` is a step that is not enabled. -/
def step (s : ClientSocketOut) : Action → Option ClientSocketOut
  | .sendPacket p space =>
    match s.holder with
    | .free => some (s.OutPacket space p)
    | _ => none
  | .sendBuffer p SocketWriteBufferSize SocketWriteBufferSize' space =>
    match s.holder with
    | .free =>
      if SocketWriteBufferSize < p.payload.length then
        --stream send
        match s.SendRawData space p.header.toBytes with
        | (.SUCCESS, t) =>
          some { t with
            holder := .streaming p (SocketWriteBufferSize' / 2) 0 0
            begun := t.begun ++ [p] }
        | (_, t) => some t
      else some (s.OutPacket space p)
    | _ => none
  | .queuePacket =>
    match s.holder with
    | .queueing p => some { s with m_packetQueue := s.m_packetQueue ++ [p], holder := .free }
    | _ => none
  | .sendChunk space =>
    match s.holder with
    | .streaming p chunkSize rpos sendCounter =>
      some (s.chunkTurn p chunkSize rpos sendCounter space)
    | _ => none
  | .update tickCount =>
    match s.holder with
    | .free => some { s with holder := (tickCount.map .pinging).getD .processing }
    | _ => none
  | .sendPing space =>
    match s.holder with
    | .pinging tickCount =>
      match s._OutPacket space (pingPacket tickCount) with
      | (.SUCCESS, t) => some { t with holder := .processing }
      | (_, t) => some t
    | _ => none
  | .processQueue space =>
    match s.holder with
    | .processing => some (s.queueTurn space)
    | _ => none
  | .handleGetActivityID token flags id space =>
    match s.reader with
    | none =>
      match s._OutPacket space (activityResponse token flags id) with
      | (.NO_ROOM_IN_BUFFER, t) => some { t with reader := some (activityResponse token flags id) }
      | (_, t) => some t
    | some _ => none
  | .queueActivityID =>
    match s.reader with
    | some p =>
      match s.holder with
      | .processing => none
      | _ => some { s with m_packetQueue := s.m_packetQueue ++ [p], reader := none }
    | none => none
  | .disconnect => some { s with connected := false }

/-- A new connection. -/
def new : ClientSocketOut := ⟨true, [], [], .free, none, []⟩

/-- One connection and its senders. -/
def sender : Machine ClientSocketOut Action where
  init s := s = new
  step := step

/-! ## Whole frames -/

/-- The frame that is being streamed. -/
def frame : HolderThread → List Packet
  | .streaming p _ _ _ => [p]
  | _ => []

/-- What has been sent of it. -/
def sentPart : HolderThread → List UInt8
  | .streaming p _ rpos _ => p.header.toBytes ++ p.payload.take rpos
  | _ => []

/-- The frames `done` are whole, one behind the other in the order in which they were
begun, and behind them there is at most the one that is being streamed. -/
structure Framed (s : ClientSocketOut) (done : List Packet) : Prop where
  begun : s.begun = done ++ frame s.holder
  written : s.written = Packet.encodeAll done ++ sentPart s.holder
  sized : ∀ p ∈ s.begun, p.Sized

/-- The steps that keep the frames whole: packets whose length the header can hold; no
stream is given up on a connected socket; no answer of `HandleGetActivityID` goes out
while a stream is unfinished. -/
def Orderly (s : ClientSocketOut) : Action → Prop
  | .sendPacket p _ => p.Sized
  | .sendBuffer p _ _ _ => p.Sized
  | .sendChunk space =>
    match s.holder with
    | .streaming p chunkSize rpos sendCounter =>
      s.connected = true → space < min (p.payload.length - rpos) chunkSize → sendCounter ≤ 100
    | _ => True
  | .handleGetActivityID token flags id space =>
    match s.holder with
    | .streaming _ _ _ _ =>
      s.connected = true →
        space < (activityResponse token flags id).payload.length + sizeofPackerHeader
    | _ => True
  | _ => True

instance : (s : ClientSocketOut) → (a : Action) → Decidable (s.Orderly a)
  | _, .sendPacket p _ => inferInstanceAs (Decidable (p.payload.length < 2 ^ 32))
  | _, .sendBuffer p _ _ _ => inferInstanceAs (Decidable (p.payload.length < 2 ^ 32))
  | ⟨connected, _, _, .streaming p chunkSize rpos sendCounter, _, _⟩, .sendChunk space =>
    inferInstanceAs (Decidable (connected = true →
      space < min (p.payload.length - rpos) chunkSize → sendCounter ≤ 100))
  | ⟨connected, _, _, .streaming _ _ _ _, _, _⟩, .handleGetActivityID token flags id space =>
    inferInstanceAs (Decidable (connected = true →
      space < (activityResponse token flags id).payload.length + sizeofPackerHeader))
  | ⟨_, _, _, .free, _, _⟩, .sendChunk _ => isTrue trivial
  | ⟨_, _, _, .queueing _, _, _⟩, .sendChunk _ => isTrue trivial
  | ⟨_, _, _, .pinging _, _, _⟩, .sendChunk _ => isTrue trivial
  | ⟨_, _, _, .processing, _, _⟩, .sendChunk _ => isTrue trivial
  | ⟨_, _, _, .free, _, _⟩, .handleGetActivityID _ _ _ _ => isTrue trivial
  | ⟨_, _, _, .queueing _, _, _⟩, .handleGetActivityID _ _ _ _ => isTrue trivial
  | ⟨_, _, _, .pinging _, _, _⟩, .handleGetActivityID _ _ _ _ => isTrue trivial
  | ⟨_, _, _, .processing, _, _⟩, .handleGetActivityID _ _ _ _ => isTrue trivial
  | _, .queuePacket => isTrue trivial
  | _, .update _ => isTrue trivial
  | _, .sendPing _ => isTrue trivial
  | _, .processQueue _ => isTrue trivial
  | _, .queueActivityID => isTrue trivial
  | _, .disconnect => isTrue trivial

/-- The packets that wait are sized, and a stream is not at its end. -/
structure Waiting (s : ClientSocketOut) : Prop where
  queue : ∀ p ∈ s.m_packetQueue, p.Sized
  queueing : ∀ p, s.holder = .queueing p → p.Sized
  reader : ∀ p, s.reader = some p → p.Sized
  rpos : ∀ p chunkSize rpos sendCounter, s.holder = .streaming p chunkSize rpos sendCounter →
    rpos < p.payload.length

/-- The invariant of the sender. -/
structure Inv (s : ClientSocketOut) : Prop where
  framed : s.connected = true → ∃ done, s.Framed done
  waiting : s.Waiting

variable {s t : ClientSocketOut} {p : Packet} {space : ℕ}

theorem sized_activityResponse (token flags : UInt32) (id : ActivityID) :
    (activityResponse token flags id).Sized := by
  have hid := id.property
  rw [Packet.Sized, activityResponse]
  dsimp only
  rw [List.length_append, List.length_append, length_toLE, length_toLE]
  omega

theorem sized_pingPacket (tickCount : UInt64) : (pingPacket tickCount).Sized := by
  rw [Packet.Sized, pingPacket]
  dsimp only
  rw [length_toLE]
  decide

/-- What `_OutPacket` can do. -/
theorem _OutPacket_cases (s : ClientSocketOut) (space : ℕ) (p : Packet) :
    (s.connected = false ∧ s._OutPacket space p = (.NOT_CONNECTED, s))
      ∨ (s.connected = true ∧ space < p.payload.length + sizeofPackerHeader
        ∧ s._OutPacket space p = (.NO_ROOM_IN_BUFFER, s))
      ∨ (s.connected = true ∧ ¬ space < p.payload.length + sizeofPackerHeader
        ∧ s._OutPacket space p
          = (.SUCCESS, { s with written := s.written ++ p.encode, begun := s.begun ++ [p] })) := by
  rw [_OutPacket]
  cases hc : s.connected with
  | false => exact Or.inl ⟨rfl, if_pos rfl⟩
  | true =>
    rw [if_neg (by decide)]
    by_cases hroom : space < p.payload.length + sizeofPackerHeader
    · exact Or.inr (Or.inl ⟨rfl, hroom, if_pos hroom⟩)
    · exact Or.inr (Or.inr ⟨rfl, hroom, if_neg hroom⟩)

/-- The same for `SendRawData`. -/
theorem SendRawData_cases (s : ClientSocketOut) (space : ℕ) (dataChunk : List UInt8) :
    (s.connected = false ∧ s.SendRawData space dataChunk = (.NOT_CONNECTED, s))
      ∨ (s.connected = true ∧ space < dataChunk.length
        ∧ s.SendRawData space dataChunk = (.NO_ROOM_IN_BUFFER, s))
      ∨ (s.connected = true ∧ ¬ space < dataChunk.length
        ∧ s.SendRawData space dataChunk
          = (.SUCCESS, { s with written := s.written ++ dataChunk })) := by
  rw [SendRawData]
  cases hc : s.connected with
  | false => exact Or.inl ⟨rfl, if_pos rfl⟩
  | true =>
    rw [if_neg (by decide)]
    by_cases hroom : space < dataChunk.length
    · exact Or.inr (Or.inl ⟨rfl, hroom, if_pos hroom⟩)
    · exact Or.inr (Or.inr ⟨rfl, hroom, if_neg hroom⟩)

/-- A frame that goes out in one step, between two others. -/
theorem Framed.sent {done : List Packet} (h : s.Framed done) (hfree : frame s.holder = [])
    (hpart : sentPart s.holder = []) (hp : p.Sized) (ht : frame t.holder = [])
    (htpart : sentPart t.holder = []) (hw : t.written = s.written ++ p.encode)
    (hb : t.begun = s.begun ++ [p]) : t.Framed (done ++ [p]) where
  begun := by
    rw [hb, h.begun, hfree, ht, List.append_nil, List.append_nil]
  written := by
    rw [hw, h.written, hpart, htpart, List.append_nil, List.append_nil, Packet.encodeAll_append,
      Packet.encodeAll_singleton]
  sized := by
    intro x hx
    rw [hb] at hx
    rcases List.mem_append.mp hx with hx | hx
    · exact h.sized x hx
    · rw [List.mem_singleton.mp hx]
      exact hp

/-- A step that puts nothing into the write buffer. -/
theorem Framed.same {done : List Packet} (h : s.Framed done) (hframe : frame t.holder = frame s.holder)
    (hpart : sentPart t.holder = sentPart s.holder) (hw : t.written = s.written)
    (hb : t.begun = s.begun) : t.Framed done where
  begun := by rw [hb, h.begun, hframe]
  written := by rw [hw, h.written, hpart]
  sized := by
    rw [hb]
    exact h.sized

/-! ## Every step keeps them -/

/-- A step that puts nothing into the write buffer keeps the invariant, if what waits
still does so in order. -/
theorem Inv.same (h : s.Inv) (hconn : t.connected = true → s.connected = true)
    (hframe : frame t.holder = frame s.holder) (hpart : sentPart t.holder = sentPart s.holder)
    (hw : t.written = s.written) (hb : t.begun = s.begun) (hwait : t.Waiting) : t.Inv where
  framed := by
    intro hc
    obtain ⟨done, hd⟩ := h.framed (hconn hc)
    exact ⟨done, hd.same hframe hpart hw hb⟩
  waiting := hwait

/-- A step that puts one whole frame into it. -/
theorem Inv.sent (h : s.Inv) (hconn : s.connected = true) (hfree : frame s.holder = [])
    (hpart : sentPart s.holder = []) (hp : p.Sized) (ht : frame t.holder = [])
    (htpart : sentPart t.holder = []) (hw : t.written = s.written ++ p.encode)
    (hb : t.begun = s.begun ++ [p]) (hwait : t.Waiting) : t.Inv where
  framed := by
    intro _
    obtain ⟨done, hd⟩ := h.framed hconn
    exact ⟨done ++ [p], hd.sent hfree hpart hp ht htpart hw hb⟩
  waiting := hwait

/-- The lock changes hands between two frames. -/
theorem Waiting.holder (h : s.Waiting) {holder : HolderThread}
    (hq : ∀ p, holder = .queueing p → p.Sized)
    (hs : ∀ p c r n, holder = .streaming p c r n → r < p.payload.length) :
    Waiting { s with holder := holder } where
  queue := h.queue
  queueing := hq
  reader := h.reader
  rpos := hs

theorem Waiting.push (h : s.Waiting) (hp : p.Sized) :
    ∀ x ∈ s.m_packetQueue ++ [p], x.Sized := by
  intro x hx
  rcases List.mem_append.mp hx with hx | hx
  · exact h.queue x hx
  · rw [List.mem_singleton.mp hx]
    exact hp

theorem Inv.outPacket (h : s.Inv) (hfree : s.holder = .free) (hp : p.Sized) (space : ℕ) :
    (s.OutPacket space p).Inv := by
  have hframe : frame s.holder = [] := by rw [hfree]; rfl
  have hpart : sentPart s.holder = [] := by rw [hfree]; rfl
  rw [OutPacket]
  rcases s._OutPacket_cases space p with ⟨-, hout⟩ | ⟨-, -, hout⟩ | ⟨hc, -, hout⟩
  · rw [hout]
    exact h
  · rw [hout]
    refine h.same id hframe.symm hpart.symm rfl rfl (h.waiting.holder ?_ ?_)
    · intro x hx
      cases hx
      exact hp
    · intro x c r n hx
      cases hx
  · rw [hout]
    exact h.sent hc hframe hpart hp hframe hpart rfl rfl
      ⟨h.waiting.queue, h.waiting.queueing, h.waiting.reader, h.waiting.rpos⟩

/-- The header of a stream. -/
theorem Inv.beginStream (h : s.Inv) (hconn : s.connected = true) (hfree : s.holder = .free)
    (hp : p.Sized) (hpos : 0 < p.payload.length) (chunkSize : ℕ) :
    Inv { s with
      written := s.written ++ p.header.toBytes
      holder := .streaming p chunkSize 0 0
      begun := s.begun ++ [p] } where
  framed := by
    intro _
    obtain ⟨done, hd⟩ := h.framed hconn
    have hframe : frame s.holder = [] := by rw [hfree]; rfl
    have hpart : sentPart s.holder = [] := by rw [hfree]; rfl
    have hbegun := hd.begun
    have hwritten := hd.written
    rw [hframe, List.append_nil] at hbegun
    rw [hpart, List.append_nil] at hwritten
    refine ⟨done, ?_, ?_, ?_⟩
    · show s.begun ++ [p] = done ++ [p]
      rw [hbegun]
    · show s.written ++ p.header.toBytes
        = Packet.encodeAll done ++ (p.header.toBytes ++ p.payload.take 0)
      rw [hwritten, List.take_zero, List.append_nil]
    · intro x hx
      rcases List.mem_append.mp hx with hx | hx
      · exact hd.sized x hx
      · rw [List.mem_singleton.mp hx]
        exact hp
  waiting := by
    refine ⟨h.waiting.queue, ?_, h.waiting.reader, ?_⟩
    · intro x hx
      cases hx
    · intro x c r n hx
      cases hx
      exact hpos

/-- A chunk goes on where the last one ended. -/
theorem take_add_slice (l : List UInt8) (n k : ℕ) : l.take (n + k) = l.take n ++ slice l n k :=
  List.take_add

theorem Inv.chunkTurn (h : s.Inv) {chunkSize rpos sendCounter : ℕ}
    (hst : s.holder = .streaming p chunkSize rpos sendCounter)
    (hok : s.connected = true → space < min (p.payload.length - rpos) chunkSize →
      sendCounter ≤ 100) :
    (s.chunkTurn p chunkSize rpos sendCounter space).Inv := by
  have hrpos := h.waiting.rpos p chunkSize rpos sendCounter hst
  obtain ⟨n, hn⟩ : ∃ n, n = min (p.payload.length - rpos) chunkSize := ⟨_, rfl⟩
  have hlen : (slice p.payload rpos n).length = n := length_slice _ _ _ (by omega)
  rw [ClientSocketOut.chunkTurn, ← hn]
  rw [← hn] at hok
  have hfreeWait : Waiting { s with holder := .free } :=
    h.waiting.holder (fun _ hx => nomatch hx) (fun _ _ _ _ hx => nomatch hx)
  rcases s.SendRawData_cases space (slice p.payload rpos n) with
    ⟨hc, hout⟩ | ⟨hc, hroom, hout⟩ | ⟨hc, -, hout⟩
  · -- not connected any more
    rw [hout]
    refine ⟨fun hconn => ?_, hfreeWait⟩
    rw [hc] at hconn
    cases hconn
  · rw [hout]
    rw [hlen] at hroom
    dsimp only
    rw [if_neg (Nat.not_lt.mpr (hok hc hroom))]
    refine h.same id ?_ ?_ rfl rfl (h.waiting.holder (fun _ hx => nomatch hx) ?_)
    · rw [hst]
      rfl
    · rw [hst]
      rfl
    · intro x c r k hx
      cases hx
      exact hrpos
  · rw [hout]
    obtain ⟨done, hd⟩ := h.framed hc
    have hbegun := hd.begun
    have hwritten := hd.written
    rw [hst, frame] at hbegun
    rw [hst, sentPart] at hwritten
    have hnext : s.written ++ slice p.payload rpos n
        = Packet.encodeAll done ++ (p.header.toBytes ++ p.payload.take (rpos + n)) := by
      rw [hwritten, take_add_slice]
      simp only [List.append_assoc]
    dsimp only
    by_cases hmore : rpos + n < p.payload.length
    · rw [if_pos hmore]
      refine ⟨fun _ => ⟨done, hbegun, hnext, hd.sized⟩,
        h.waiting.queue, (fun _ hx => nomatch hx), h.waiting.reader, ?_⟩
      intro x c r k hx
      cases hx
      exact hmore
    · -- the frame is whole
      rw [if_neg hmore]
      have hwhole : p.payload.take (rpos + n) = p.payload :=
        List.take_of_length_le (Nat.not_lt.mp hmore)
      refine ⟨fun _ => ⟨done ++ [p], ?_, ?_, hd.sized⟩,
        h.waiting.queue, (fun _ hx => nomatch hx), h.waiting.reader, fun _ _ _ _ hx => nomatch hx⟩
      · show s.begun = done ++ [p] ++ []
        rw [hbegun, List.append_nil]
      · show s.written ++ slice p.payload rpos n = Packet.encodeAll (done ++ [p]) ++ []
        rw [hnext, hwhole, Packet.encodeAll_append, Packet.encodeAll_singleton, List.append_nil,
          Packet.encode]

theorem Inv.queueTurn (h : s.Inv) (hpr : s.holder = .processing) (space : ℕ) :
    (s.queueTurn space).Inv := by
  have hframe : frame s.holder = [] := by rw [hpr]; rfl
  have hpart : sentPart s.holder = [] := by rw [hpr]; rfl
  have hfreeWait : Waiting { s with holder := .free } :=
    h.waiting.holder (fun _ hx => nomatch hx) (fun _ _ _ _ hx => nomatch hx)
  have hfreeInv : Inv { s with holder := .free } :=
    h.same id hframe.symm hpart.symm rfl rfl hfreeWait
  rw [ClientSocketOut.queueTurn]
  cases hq : s.m_packetQueue with
  | nil =>
    rw [hq] at hfreeInv
    exact hfreeInv
  | cons p packets =>
    have hall := h.waiting.queue
    rw [hq] at hall
    obtain ⟨hp, hpackets⟩ := List.forall_mem_cons.mp hall
    dsimp only
    rcases s._OutPacket_cases space p with ⟨-, hout⟩ | ⟨-, -, hout⟩ | ⟨hc, -, hout⟩
    · rw [hout]
      exact h.same id rfl rfl rfl rfl
        ⟨fun x hx => absurd hx List.not_mem_nil, h.waiting.queueing, h.waiting.reader,
          h.waiting.rpos⟩
    · rw [hout]
      exact hfreeInv
    · rw [hout]
      exact h.sent hc hframe hpart hp hframe hpart rfl rfl
        ⟨hpackets, h.waiting.queueing, h.waiting.reader, h.waiting.rpos⟩

/-- The lock is taken or given back between two frames. -/
theorem Inv.holder (h : s.Inv) {holder : HolderThread} (hframe : frame s.holder = [])
    (hpart : sentPart s.holder = []) (ht : frame holder = []) (htpart : sentPart holder = [])
    (hq : ∀ p, holder = .queueing p → p.Sized)
    (hs : ∀ p c r n, holder = .streaming p c r n → r < p.payload.length) :
    Inv { s with holder := holder } :=
  h.same id (ht.trans hframe.symm) (htpart.trans hpart.symm) rfl rfl (h.waiting.holder hq hs)

theorem Inv.sendBuffer (h : s.Inv) (hfree : s.holder = .free) (hp : p.Sized)
    (limit limit' space : ℕ) (hs : s.step (.sendBuffer p limit limit' space) = some t) : t.Inv := by
  rw [step, hfree] at hs
  dsimp only at hs
  by_cases hbig : limit < p.payload.length
  · rw [if_pos hbig] at hs
    rcases s.SendRawData_cases space p.header.toBytes with
      ⟨-, hout⟩ | ⟨-, -, hout⟩ | ⟨hc, -, hout⟩
    · rw [hout] at hs
      cases hs
      exact h
    · rw [hout] at hs
      cases hs
      exact h
    · rw [hout] at hs
      cases hs
      exact h.beginStream hc hfree hp (by omega) (limit' / 2)
  · rw [if_neg hbig] at hs
    cases hs
    exact h.outPacket hfree hp space

theorem Inv.sendPing (h : s.Inv) {tickCount : UInt64} (hping : s.holder = .pinging tickCount)
    (hs : s.step (.sendPing space) = some t) : t.Inv := by
  have hframe : frame s.holder = [] := by rw [hping]; rfl
  have hpart : sentPart s.holder = [] := by rw [hping]; rfl
  rw [step, hping] at hs
  dsimp only at hs
  rcases s._OutPacket_cases space (pingPacket tickCount) with
    ⟨-, hout⟩ | ⟨-, -, hout⟩ | ⟨hc, -, hout⟩
  · rw [hout] at hs
    cases hs
    exact h
  · rw [hout] at hs
    cases hs
    exact h
  · rw [hout] at hs
    cases hs
    exact h.sent hc hframe hpart (sized_pingPacket tickCount) rfl rfl rfl rfl
      ⟨h.waiting.queue, (fun _ hx => nomatch hx), h.waiting.reader, fun _ _ _ _ hx => nomatch hx⟩

/-- The socket's own thread, if its frame does not go into a stream. -/
theorem Inv.handleGetActivityID (h : s.Inv) {token flags : UInt32} {id : ActivityID}
    (hok : s.Orderly (.handleGetActivityID token flags id space))
    (hs : s.step (.handleGetActivityID token flags id space) = some t) : t.Inv := by
  have hp := sized_activityResponse token flags id
  rw [step] at hs
  cases hreader : s.reader with
  | some q =>
    rw [hreader] at hs
    cases hs
  | none =>
    rw [hreader] at hs
    dsimp only at hs
    rcases s._OutPacket_cases space (activityResponse token flags id) with
      ⟨-, hout⟩ | ⟨-, -, hout⟩ | ⟨hc, hroom, hout⟩
    · rw [hout] at hs
      cases hs
      exact h
    · rw [hout] at hs
      cases hs
      refine h.same (fun hc => hc) rfl rfl rfl rfl
        ⟨h.waiting.queue, h.waiting.queueing, ?_, h.waiting.rpos⟩
      intro x hx
      cases hx
      exact hp
    · rw [hout] at hs
      cases hs
      have hidle : frame s.holder = [] ∧ sentPart s.holder = [] := by
        cases hh : s.holder with
        | streaming q c r n =>
          rw [Orderly, hh] at hok
          exact absurd (hok hc) hroom
        | free => exact ⟨rfl, rfl⟩
        | queueing q => exact ⟨rfl, rfl⟩
        | pinging tickCount => exact ⟨rfl, rfl⟩
        | processing => exact ⟨rfl, rfl⟩
      exact h.sent hc hidle.1 hidle.2 hp hidle.1 hidle.2 rfl rfl
        ⟨h.waiting.queue, h.waiting.queueing, h.waiting.reader, h.waiting.rpos⟩

theorem Inv.step {a : Action} (h : s.Inv) (hok : s.Orderly a) (hs : s.step a = some t) :
    t.Inv := by
  cases a with
  | sendPacket p space =>
    rw [ClientSocketOut.step] at hs
    split at hs
    · next hfree =>
      cases hs
      exact h.outPacket hfree hok space
    · cases hs
  | sendBuffer p limit limit' space =>
    have hs' := hs
    rw [ClientSocketOut.step] at hs'
    split at hs'
    · next hfree => exact h.sendBuffer hfree hok limit limit' space hs
    · cases hs'
  | queuePacket =>
    rw [ClientSocketOut.step] at hs
    split at hs
    · next p hq =>
      cases hs
      have hp := h.waiting.queueing p hq
      refine h.same (fun hc => hc) (by rw [hq]; rfl) (by rw [hq]; rfl) rfl rfl
        ⟨h.waiting.push hp, (fun _ hx => nomatch hx), h.waiting.reader,
          fun _ _ _ _ hx => nomatch hx⟩
    · cases hs
  | sendChunk space =>
    rw [ClientSocketOut.step] at hs
    split at hs
    · next p chunkSize rpos sendCounter hst =>
      cases hs
      rw [Orderly, hst] at hok
      exact h.chunkTurn hst hok
    · cases hs
  | update tickCount =>
    rw [ClientSocketOut.step] at hs
    split at hs
    · next hfree =>
      cases hs
      have hframe : frame s.holder = [] := by rw [hfree]; rfl
      have hpart : sentPart s.holder = [] := by rw [hfree]; rfl
      cases tickCount with
      | some tickCount =>
        exact h.holder hframe hpart rfl rfl (fun _ hx => nomatch hx) fun _ _ _ _ hx => nomatch hx
      | none =>
        exact h.holder hframe hpart rfl rfl (fun _ hx => nomatch hx) fun _ _ _ _ hx => nomatch hx
    · cases hs
  | sendPing space =>
    have hs' := hs
    rw [ClientSocketOut.step] at hs'
    split at hs'
    · next tickCount hping => exact h.sendPing hping hs
    · cases hs'
  | processQueue space =>
    rw [ClientSocketOut.step] at hs
    split at hs
    · next hpr =>
      cases hs
      exact h.queueTurn hpr space
    · cases hs
  | handleGetActivityID token flags id space => exact h.handleGetActivityID hok hs
  | queueActivityID =>
    rw [ClientSocketOut.step] at hs
    split at hs
    · next p hq =>
      split at hs
      · cases hs
      · cases hs
        exact h.same (fun hc => hc) rfl rfl rfl rfl
          ⟨h.waiting.push (h.waiting.reader p hq), h.waiting.queueing,
            (fun _ hx => nomatch hx), h.waiting.rpos⟩
    · cases hs
  | disconnect =>
    cases hs
    exact ⟨(fun hc => nomatch hc), h.waiting.queue, h.waiting.queueing, h.waiting.reader,
      h.waiting.rpos⟩

theorem new_inv : new.Inv where
  framed := fun _ => ⟨[], rfl, rfl, fun _ hp => absurd hp List.not_mem_nil⟩
  waiting := ⟨fun _ hp => absurd hp List.not_mem_nil, (fun _ hp => nomatch hp),
    (fun _ hp => nomatch hp), fun _ _ _ _ hp => nomatch hp⟩

/-- **The stream is always whole frames**, in every run in which no stream is given up on
a connected socket and no answer of `HandleGetActivityID` goes out inside one. -/
theorem frames_whole (h : sender.Reach (fun s a _ => s.Orderly a) s) (hc : s.connected = true) :
    ∃ done, s.Framed done := by
  have hinv : s.Inv := by
    refine h.invariant Inv ?_ ?_
    · rintro s rfl
      exact new_inv
    · intro s a t hs hok hst
      exact hs.step hok hst
  exact hinv.framed hc

/-! ## Runs -/

/-- A run whose steps pass a test, and what is checked at its end. -/
theorem exists_run {ok : ClientSocketOut → Action → ClientSocketOut → Prop}
    {test : ClientSocketOut → Action → Bool} (htest : ∀ s a t, test s a = true → ok s a t)
    {actions : List Action} {q : ClientSocketOut → Bool}
    (h : (sender.run test new actions).any q = true) : ∃ s, sender.Reach ok s ∧ q s = true := by
  obtain ⟨s, hrun, hq⟩ := Option.any_eq_true .. |>.mp h
  have hstart : sender.Reach ok new := .init new rfl
  exact ⟨s, hstart.steps (Machine.Steps.of_run (fun s a t h _ => htest s a t h) hrun), hq⟩

/-- A payload of 21 bytes. -/
def sample : Packet := ⟨4, List.replicate 21 7⟩

/-- A stream of three chunks, and a ping behind it. -/
theorem frames_whole_sample :
    ∃ s : ClientSocketOut, s.written = sample.encode ++ (pingPacket 5).encode
      ∧ ∃ done, s.Framed done := by
  have hrun : (sender.run (fun s a => decide (s.Orderly a)) new
      [.sendBuffer sample 20 20 100, .sendChunk 100, .sendChunk 100, .sendChunk 100,
        .update (some 5), .sendPing 100]).any
      (fun s => decide (s.connected = true ∧ s.written = sample.encode ++ (pingPacket 5).encode))
      = true := by
    decide +kernel
  have htest : ∀ (s : ClientSocketOut) (a : Action) (_ : ClientSocketOut),
      decide (s.Orderly a) = true → s.Orderly a := fun _ _ _ => of_decide_eq_true
  obtain ⟨s, hreach, hs⟩ := exists_run htest hrun
  obtain ⟨hc, hw⟩ := of_decide_eq_true hs
  exact ⟨s, hw, frames_whole hreach hc⟩

/-- A connected socket whose frames are not whole, in two runs: the answer of
`HandleGetActivityID` has gone out behind the first chunk of a stream; and, without any
such answer, a stream has waited too often for room. -/
theorem not_frames_whole :
    (∃ s, sender.Reach (fun _ _ _ => True) s ∧ s.connected = true ∧ ¬ ∃ done, s.Framed done)
      ∧ ∃ s, sender.Reach (fun _ a _ => a.ofHolder = true) s ∧ s.connected = true
        ∧ ¬ ∃ done, s.Framed done := by
  constructor
  · have hrun : (sender.run (fun _ _ => true) new
        [.sendBuffer sample 20 20 100, .sendChunk 100,
          .handleGetActivityID 1 2 ⟨[], by decide⟩ 100]).any
        (fun s => decide (s.connected = true ∧ frame s.holder = [sample]
          ∧ s.begun.getLast? ≠ some sample)) = true := by
      decide +kernel
    obtain ⟨s, hreach, hs⟩ := exists_run (fun _ _ _ _ => trivial) hrun
    obtain ⟨hc, hframe, hlast⟩ := of_decide_eq_true hs
    refine ⟨s, hreach, hc, ?_⟩
    rintro ⟨done, hd⟩
    rw [hd.begun, hframe, List.getLast?_concat] at hlast
    exact hlast rfl
  · have hrun : (sender.run (fun _ a => a.ofHolder) new
        (.sendBuffer sample 20 20 6 :: List.replicate 102 (.sendChunk 0))).any
        (fun s => decide (s.connected = true ∧ s.holder = .free ∧ s.begun = [sample]
          ∧ s.written ≠ sample.encode)) = true := by
      decide +kernel
    obtain ⟨s, hreach, hs⟩ := exists_run (fun _ _ _ h => h) hrun
    obtain ⟨hc, hfree, hbegun, hw⟩ := of_decide_eq_true hs
    refine ⟨s, hreach, hc, ?_⟩
    rintro ⟨done, hd⟩
    have hframe : frame s.holder = [] := by rw [hfree]; rfl
    have hpart : sentPart s.holder = [] := by rw [hfree]; rfl
    have hdone := hd.begun
    rw [hframe, hbegun, List.append_nil] at hdone
    have hwritten := hd.written
    rw [hpart, ← hdone, List.append_nil, Packet.encodeAll_singleton] at hwritten
    exact hw hwritten

end ClientSocketOut

end TransDB
