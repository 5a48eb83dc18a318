/-
The client of `transDB.py`, connected with the service.

Two streams of bytes lie between them. The client puts its packets on one, and `OnRead` of the
service takes them off as the bytes come, however the stream is cut and wherever the ring wraps.
The workers and the storage thread hand their responses to the socket of the client, which sends
them as `ClientSocketOut` does: at once, in chunks, from its queue, or never; and the client takes
header and payload off what has been written. A connection may break: what is on it is lost, and
the client connects again. Client, service and socket take their steps in any order.

What is on the connection has an origin: a packet to the service is a request of a thread or
a pong, a packet to the client is a response or a ping (`shows_linked`). As long as the frames of
the socket are whole, the client receives these packets and nothing else (`shows_readTo`).
-/
import TransDB.ClientSocketStream
import TransDB.ClientSocketWorkerHistory
import TransDB.PythonClientAnswers

set_option autoImplicit false

namespace TransDB

open ByteList ClientSocketWorkerTask PythonClient

/-- The step is one of `socket_run`. -/
def PythonThreads.Step.ofSocket {ι : Type} : PythonThreads.Step ι → Bool
  | .transmit | .receive _ => true
  | _ => false

/-- The step is a packet that comes to one of the sockets. -/
def Service.Step.comesTo (mine : UInt64 → Bool) : Service.Step → Bool
  | .receive m_socketID _ _ => mine m_socketID
  | _ => false

/-! ## The connection -/

/-- The client and the service, with the two streams between them. -/
structure Connection (ι : Type) where
  client : PythonThreads ι
  service : Service
  /-- The socket of the service that the client is connected with. -/
  m_socketID : UInt64
  /-- The bytes on their way to it. -/
  wire : List UInt8
  /-- Its receiving side. -/
  socketIn : ClientSocketIn
  /-- How many of the packets that it has processed have come to their handlers. -/
  handled : ℕ
  /-- The responses that threads of the service hand to it. -/
  responses : List Packet
  /-- Its sending side. -/
  socketOut : ClientSocketOut
  /-- How many of the bytes that it has written `socket_run` has received. -/
  received : ℕ

namespace Connection

variable {ι : Type} [DecidableEq ι]

inductive Step (ι : Type)
  | thread (a : PythonThreads.Step ι)
  /-- `socket_run` sends a packet. -/
  | transmit
  /-- A packet comes to `socket_run`. -/
  | deliver
  /-- `n` bytes come to the service, whose `OnRead` is called. -/
  | onRead (n : ℕ) (ring : Contiguous)
  /-- A packet comes to its handler. -/
  | arrive (id : ClientSocketOut.ActivityID)
  /-- A step of the service; a packet that it receives is one of another client. -/
  | serve (a : Service.Step)
  /-- A step of the socket's senders; a packet that it brings is one of the responses. -/
  | send (a : ClientSocketOut.Action)
  | reconnect (m_socketID : UInt64)

/-- What is seen of a step. -/
inductive Seen (ι : Type)
  | client (e : PythonThreads.Seen ι)
  | service (e : Service.Seen)

def Seen.ofService : Seen ι → Option Service.Seen
  | .client _ => none
  | .service e => some e

variable (zlib : Zlib) (E : Setup)

/-- The packets that are sent to a socket. -/
def sentTo (m_socketID : UInt64) (e : Option Service.Seen) : List Packet :=
  (e.toList.flatMap (Service.answers E)).filterMap fun a =>
    if a.1.m_socketID = m_socketID then some a.2 else none

/-- A step of the service. -/
def serve (s : Connection ι) (a : Service.Step) : Option (Connection ι) :=
  (Service.step E s.service a).map fun service =>
    { s with
      service
      responses := s.responses ++ sentTo E s.m_socketID (Service.seen E s.service a) }

/-- A step of the senders; the response that it brings is handed on once. -/
def send (s : Connection ι) (a : ClientSocketOut.Action) : Option (Connection ι) :=
  match a.response with
  | some packet =>
    if packet ∈ s.responses then
      (s.socketOut.step a).map fun socketOut =>
        { s with socketOut, responses := s.responses.erase packet }
    else none
  | none => (s.socketOut.step a).map fun socketOut => { s with socketOut }

/-- What `socket_run` receives next. -/
def coming (s : Connection ι) : Option Packet :=
  recvPacket (s.socketOut.written.drop s.received)

/-- The packet that `socket_run` sends next, if its size can be packed. -/
def transmitted (s : Connection ι) : List Packet :=
  s.client.sendQueue.head?.toList.filter fun packet => decide (packet.payload.length < 2 ^ 32)

variable (mine : UInt64 → Bool)

/-- `mine` are the sockets that the service gives to the client. -/
def step (s : Connection ι) : Step ι → Option (Connection ι)
  | .thread a =>
    if a.ofSocket then none
    else (PythonThreads.step zlib s.client a).map fun client => { s with client }
  | .transmit =>
    (PythonThreads.step zlib s.client .transmit).map fun client =>
      { s with client, wire := s.wire ++ Packet.encodeAll s.transmitted }
  | .deliver =>
    match s.coming with
    | some packet =>
      (PythonThreads.step zlib s.client (.receive packet)).map fun client =>
        { s with client, received := s.received + packet.encode.length }
    | none => none
  | .onRead n ring =>
    ((s.socketIn.receive (s.wire.take n)).OnRead ring).map fun socketIn =>
      { s with socketIn, wire := s.wire.drop n }
  | .arrive id =>
    match s.socketIn.processed[s.handled]? with
    | some q =>
      (s.serve E (.receive s.m_socketID q.packet id)).map fun t =>
        { t with handled := s.handled + 1 }
    | none => none
  | .serve a => if a.comesTo mine then none else s.serve E a
  | .send a => s.send a
  | .reconnect m_socketID =>
    if mine m_socketID then
      some { s with
        m_socketID
        wire := []
        socketIn := .new
        handled := 0
        responses := []
        socketOut := .new
        received := 0 }
    else none

/-- What a step is to the service. -/
def serviceStep (s : Connection ι) : Step ι → Option Service.Step
  | .arrive id => s.socketIn.processed[s.handled]?.map fun q => .receive s.m_socketID q.packet id
  | .serve a => some a
  | _ => none

/-- What a step is to the client. -/
def clientStep (s : Connection ι) : Step ι → Option (PythonThreads.Step ι)
  | .thread a => some a
  | .transmit => some .transmit
  | .deliver => s.coming.map .receive
  | _ => none

def seen (s : Connection ι) (a : Step ι) : Option (Seen ι) :=
  match s.clientStep a, s.serviceStep a with
  | some c, _ => (PythonThreads.seen zlib s.client c).map .client
  | none, some b => (Service.seen E s.service b).map .service
  | none, none => none

/-- No thread has called a function, no packet has come, and none is on its way. -/
structure Started (s : Connection ι) : Prop where
  client : PythonThreads.Quiet s.client
  service : Service.Idle s.service
  mine : mine s.m_socketID = true
  wire : s.wire = []
  socketIn : s.socketIn = .new
  responses : s.responses = []
  socketOut : s.socketOut = .new
  received : s.received = 0

/-- The client has sent the packets `sent` on the connection. -/
def Sent (s : Connection ι) (sent : List Packet) : Prop := s.socketIn.Reads sent s.wire

/-- The packets that have been handed to the socket for the client, begun or not. -/
def toClient (s : Connection ι) : List Packet := s.responses ++ s.socketOut.packets

variable {zlib E mine} {s t : Connection ι} {a : Step ι}

/-- What a step can do; `b` is what it is to the service. -/
inductive Moved (zlib : Zlib) (E : Setup) (mine : UInt64 → Bool) (s : Connection ι) :
    Option Service.Step → Connection ι → Option (Seen ι) → Prop
  | client (c : PythonThreads.Step ι) (t : Connection ι)
    (hstep : PythonThreads.step zlib s.client c = some t.client) (hservice : t.service = s.service)
    (hid : t.m_socketID = s.m_socketID)
    (hserver : ∀ sent, s.Sent sent → ∃ sent', t.Sent sent'
      ∧ ∀ p ∈ sent', p ∈ sent ∨ p ∈ s.client.sendQueue)
    (hclient : ∀ p ∈ t.toClient, p ∈ s.toClient) (hfrom : ∀ p, c = .receive p → s.coming = some p) :
    Moved zlib E mine s none t ((PythonThreads.seen zlib s.client c).map .client)
  | service (b : Service.Step) (t : Connection ι)
    (hstep : Service.step E s.service b = some t.service) (hthreads : t.client = s.client)
    (hid : t.m_socketID = s.m_socketID) (hserver : ∀ sent, s.Sent sent → t.Sent sent)
    (hclient : ∀ p ∈ t.toClient,
      p ∈ s.toClient ∨ p ∈ sentTo E s.m_socketID (Service.seen E s.service b))
    (hfrom : ∀ m_socketID p id, b = .receive m_socketID p id → mine m_socketID = true →
      ∀ sent, s.Sent sent → p ∈ sent) :
    Moved zlib E mine s (some b) t ((Service.seen E s.service b).map .service)
  | network (t : Connection ι) (hthreads : t.client = s.client) (hservice : t.service = s.service)
    (hid : mine s.m_socketID = true → mine t.m_socketID = true)
    (hserver : ∀ sent, s.Sent sent → ∃ sent', t.Sent sent' ∧ ∀ p ∈ sent', p ∈ sent)
    (hclient : ∀ p ∈ t.toClient, p ∈ s.toClient ∨ p.opcode = 10) :
    Moved zlib E mine s none t none

omit [DecidableEq ι] in
theorem mem_toClient {p : Packet} : p ∈ s.toClient ↔ p ∈ s.responses ∨ p ∈ s.socketOut.packets :=
  List.mem_append

omit [DecidableEq ι] in
/-- The packets that the service hands to the socket in a step. -/
theorem serve_toClient {b : Service.Step} {service : Service} {handled : ℕ} {p : Packet}
    (hp : p ∈ Connection.toClient { s with
      service
      handled
      responses := s.responses ++ sentTo E s.m_socketID (Service.seen E s.service b) }) :
    p ∈ s.toClient ∨ p ∈ sentTo E s.m_socketID (Service.seen E s.service b) := by
  rcases mem_toClient.mp hp with hp | hp
  · rcases List.mem_append.mp hp with hp | hp
    · exact Or.inl (mem_toClient.mpr (Or.inl hp))
    · exact Or.inr hp
  · exact Or.inl (mem_toClient.mpr (Or.inr hp))

theorem moved_serve {b : Service.Step} (h : s.serve E b = some t)
    (hother : ∀ m_socketID p id, b = .receive m_socketID p id → mine m_socketID = true →
      ∀ sent, s.Sent sent → p ∈ sent) :
    Moved zlib E mine s (some b) t ((Service.seen E s.service b).map .service) := by
  obtain ⟨service, hstep, rfl⟩ := Option.map_eq_some_iff.mp h
  exact .service b _ hstep rfl rfl (fun _ hsent => hsent) (fun p hp => serve_toClient hp) hother

/-- A step of the senders puts responses and pings on the stream to the client. -/
theorem moved_out {b : ClientSocketOut.Action} {socketOut : ClientSocketOut}
    {responses : List Packet} (hstep : s.socketOut.step b = some socketOut)
    (hrest : ∀ p ∈ responses, p ∈ s.responses) (hbrings : ∀ p ∈ b.response, p ∈ s.responses) :
    Moved zlib E mine s none { s with socketOut, responses } none := by
  refine .network _ rfl rfl id (fun sent hsent => ⟨sent, hsent, fun _ hp => hp⟩) fun p hp => ?_
  rcases mem_toClient.mp hp with hp | hp
  · exact Or.inl (mem_toClient.mpr (Or.inl (hrest p hp)))
  · rcases (ClientSocketOut.step_grows hstep).packets p hp with hp | hp | hp
    · exact Or.inl (mem_toClient.mpr (Or.inr hp))
    · exact Or.inl (mem_toClient.mpr (Or.inl (hbrings p hp)))
    · exact Or.inr hp

theorem moved_send {b : ClientSocketOut.Action} (h : s.send b = some t) :
    Moved zlib E mine s none t none := by
  rw [send] at h
  split at h
  case h_1 packet hpacket =>
    split at h
    case isTrue hmem =>
      obtain ⟨socketOut, hstep, rfl⟩ := Option.map_eq_some_iff.mp h
      refine moved_out hstep (fun _ hp => List.mem_of_mem_erase hp) fun p hp => ?_
      rw [hpacket] at hp
      cases hp
      exact hmem
    case isFalse => cases h
  case h_2 hnone =>
    obtain ⟨socketOut, hstep, rfl⟩ := Option.map_eq_some_iff.mp h
    refine moved_out hstep (fun _ hp => hp) fun p hp => ?_
    rw [hnone] at hp
    cases hp

theorem step_moved (h : step zlib E mine s a = some t) :
    Moved zlib E mine s (s.serviceStep a) t (seen zlib E s a) := by
  cases a with
  | thread c =>
    rw [step] at h
    split at h
    case isTrue => cases h
    case isFalse hc =>
      obtain ⟨client, hstep, rfl⟩ := Option.map_eq_some_iff.mp h
      refine .client c _ hstep rfl rfl (fun sent hsent => ⟨sent, hsent, fun _ hp => Or.inl hp⟩)
        (fun _ hp => hp) fun p hrec => ?_
      rw [hrec] at hc
      exact absurd rfl hc
  | transmit =>
    obtain ⟨client, hstep, rfl⟩ := Option.map_eq_some_iff.mp h
    refine .client .transmit _ hstep rfl rfl (fun sent hsent => ?_) (fun _ hp => hp)
      (by rintro p ⟨⟩)
    refine ⟨sent ++ s.transmitted, hsent.send fun p hp => ?_, fun p hp => ?_⟩
    · have hsize : p.payload.length < 2 ^ 32 := of_decide_eq_true (List.mem_filter.mp hp).2
      exact hsize
    · rcases List.mem_append.mp hp with hp | hp
      · exact Or.inl hp
      · have hhead := Option.mem_toList.mp (List.mem_filter.mp hp).1
        exact Or.inr (List.mem_of_mem_head? hhead)
  | deliver =>
    rw [step] at h
    split at h
    case h_1 packet hcoming =>
      obtain ⟨client, hstep, rfl⟩ := Option.map_eq_some_iff.mp h
      have hseen : seen zlib E s .deliver
          = (PythonThreads.seen zlib s.client (.receive packet)).map .client := by
        rw [seen, clientStep, hcoming]
        rfl
      rw [hseen]
      refine .client _ _ hstep rfl rfl (fun sent hsent => ⟨sent, hsent, fun _ hp => Or.inl hp⟩)
        (fun _ hp => hp) fun p hrec => ?_
      cases hrec
      exact hcoming
    case h_2 => cases h
  | onRead n ring =>
    obtain ⟨socketIn, hread, rfl⟩ := Option.map_eq_some_iff.mp h
    exact .network _ rfl rfl id (fun sent hsent => ⟨sent, hsent.onRead hread, fun _ hp => hp⟩)
      fun _ hp => Or.inl hp
  | arrive id =>
    rw [step] at h
    split at h
    case h_1 q hq =>
      obtain ⟨u, hu, rfl⟩ := Option.map_eq_some_iff.mp h
      obtain ⟨service, hstep, rfl⟩ := Option.map_eq_some_iff.mp hu
      have hservice : s.serviceStep (.arrive id) = some (.receive s.m_socketID q.packet id) := by
        rw [serviceStep, hq]
        rfl
      have hseen : seen zlib E s (.arrive id)
          = (Service.seen E s.service (.receive s.m_socketID q.packet id)).map .service := by
        rw [seen, hservice]
        rfl
      rw [hservice, hseen]
      refine .service _ _ hstep rfl rfl (fun _ hsent => hsent) (fun p hp => serve_toClient hp) ?_
      intro m_socketID p id hrec _ sent hsent
      cases hrec
      exact hsent.processed (List.mem_of_getElem? hq)
    case h_2 => cases h
  | serve b =>
    rw [step] at h
    split at h
    case isTrue => cases h
    case isFalse hother =>
      refine moved_serve h fun m_socketID p id hrec hmine => ?_
      rw [hrec] at hother
      exact absurd hmine hother
  | send b => exact moved_send h
  | reconnect m_socketID =>
    rw [step] at h
    split at h
    case isTrue hmine =>
      cases h
      exact .network _ rfl rfl (fun _ => hmine)
        (fun _ _ => ⟨[], ClientSocketIn.new_reads, List.forall_mem_nil _⟩) (List.forall_mem_nil _)
    case isFalse => cases h

/-! ## The two parts -/

/-- The step of the senders, if it is one. -/
def Step.ofSender : Step ι → Option ClientSocketOut.Action
  | .send a => some a
  | _ => none

/-- No two calls of `getToken` overlap, nothing is lost in the store, and the senders keep the
frames to the client whole. -/
structure Ok (E : Setup) (s : Connection ι) (a : Step ι) (t : Connection ι) : Prop where
  alone : t.client.Exclusive
  lasting : ∀ b ∈ s.serviceStep a, Service.Lasting E s.service b t.service
  orderly : ∀ b ∈ a.ofSender, s.socketOut.Orderly b

variable {es : List (Seen ι)}

/-- The events of the service. -/
def ofService (es : List (Seen ι)) : List Service.Seen := es.filterMap Seen.ofService

/-- The packet is a request that a thread has sent, or a pong. -/
def Asked (zlib : Zlib) (es : List (Seen ι)) (p : Packet) : Prop :=
  p.opcode = 9 ∨ ∃ i token request, .client (.sent i token request) ∈ es
    ∧ p = request.packet zlib token

/-- The packet is a response that the service has sent to the client, or a ping. -/
def Answered (E : Setup) (mine : UInt64 → Bool) (es : List (Seen ι)) (p : Packet) : Prop :=
  p.opcode = 10 ∨ ∃ a ∈ (ofService es).flatMap (Service.answers E),
    mine a.1.m_socketID = true ∧ a.2 = p

omit [DecidableEq ι] in
theorem Asked.append {p : Packet} (h : Asked zlib es p) (fs : List (Seen ι)) :
    Asked zlib (es ++ fs) p := by
  rcases h with hop | ⟨i, token, request, hsent, rfl⟩
  · exact Or.inl hop
  · exact Or.inr ⟨i, token, request, List.mem_append_left fs hsent, rfl⟩

omit [DecidableEq ι] in
theorem Answered.append {p : Packet} (h : Answered E mine es p) (fs : List (Seen ι)) :
    Answered E mine (es ++ fs) p := by
  rcases h with hop | ⟨a, ha, hmine⟩
  · exact Or.inl hop
  · refine Or.inr ⟨a, ?_, hmine⟩
    rw [ofService, List.filterMap_append, List.flatMap_append]
    exact List.mem_append_left _ ha

/-- What every state keeps of the history of its packets. -/
structure Linked (zlib : Zlib) (E : Setup) (mine : UInt64 → Bool) (s : Connection ι)
    (es : List (Seen ι)) : Prop where
  socket : mine s.m_socketID = true
  queue : ∀ p ∈ s.client.sendQueue, Asked zlib es p
  toServer : ∃ sent, s.Sent sent ∧ ∀ p ∈ sent, Asked zlib es p
  toClient : ∀ p ∈ s.toClient, Answered E mine es p
  requests : ∀ r ∈ (ofService es).flatMap Service.requests, mine r.m_socketID = true →
    ∃ p, Asked zlib es p ∧ r = Service.taskOf r.m_socketID p

/-- A request that is seen has come in this step. -/
theorem requests_seen {service : Service} {b : Service.Step} {r : ClientSocketTaskData}
    (h : r ∈ (Service.seen E service b).toList.flatMap Service.requests) :
    ∃ p id, b = .receive r.m_socketID p id ∧ r = Service.taskOf r.m_socketID p := by
  obtain ⟨e, he, hr⟩ := List.mem_flatMap.mp h
  rw [Option.mem_toList] at he
  cases b with
  | receive m_socketID p id =>
    rw [Service.seen] at he
    split at he
    case h_1 q =>
      cases he
      rw [List.mem_singleton.mp hr]
      exact ⟨p, id, rfl, rfl⟩
    case h_2 =>
      cases he
      rw [List.mem_singleton.mp hr]
      exact ⟨p, id, rfl, rfl⟩
    case h_3 => cases he
  | take w =>
    obtain ⟨q, -, he⟩ := Option.bind_eq_some_iff.mp he
    obtain ⟨r', -, he⟩ := Option.bind_eq_some_iff.mp he
    cases he
    cases hr
  | call w args =>
    rw [Service.seen] at he
    split at he
    case h_1 =>
      obtain ⟨v, -, he⟩ := Option.bind_eq_some_iff.mp he
      cases he
      cases hr
    case h_2 => cases he
  | finish w cfg =>
    rw [Service.seen] at he
    split at he
    case h_1 =>
      cases he
      cases hr
    case h_2 => cases he
  | sendDefragmented =>
    obtain ⟨d, -, rfl⟩ := Option.map_eq_some_iff.mp he
    cases hr
  | sendDump i cfg =>
    obtain ⟨d, -, rfl⟩ := Option.map_eq_some_iff.mp he
    cases hr
  | _ => cases he

theorem mem_sentTo {m_socketID : UInt64} {e : Option Service.Seen} {p : Packet}
    (h : p ∈ sentTo E m_socketID e) :
    ∃ a ∈ e.toList.flatMap (Service.answers E), a.1.m_socketID = m_socketID ∧ a.2 = p := by
  obtain ⟨a, ha, heq⟩ := List.mem_filterMap.mp h
  split at heq
  case isTrue hid =>
    cases heq
    exact ⟨a, ha, hid, rfl⟩
  case isFalse => cases heq

theorem Linked.moved {o : Option Service.Step} {e : Option (Seen ι)} (h : Linked zlib E mine s es)
    (hm : Moved zlib E mine s o t e) : Linked zlib E mine t (es ++ e.toList) := by
  cases hm with
  | client c t hc hservice hid hserver hclient hfrom =>
    have hnone : ofService ((PythonThreads.seen zlib s.client c).map Seen.client).toList = [] := by
      cases PythonThreads.seen zlib s.client c <;> rfl
    obtain ⟨sent, hsent, hasked⟩ := h.toServer
    obtain ⟨sent', hsent', hmem⟩ := hserver sent hsent
    refine ⟨by rw [hid]; exact h.socket, fun p hp => ?_, ⟨sent', hsent', fun p hp => ?_⟩,
      fun p hp => (h.toClient p (hclient p hp)).append _, fun r hr hmine => ?_⟩
    · rcases PythonThreads.queue_moved (PythonThreads.step_moved hc) hp with
        hp | hop | ⟨i, token, request, hsent, rfl⟩
      · exact (h.queue p hp).append _
      · exact Or.inl hop
      · refine Or.inr ⟨i, token, request, ?_, rfl⟩
        rw [hsent]
        exact List.mem_append_right es List.mem_cons_self
    · rcases hmem p hp with hp | hp
      · exact (hasked p hp).append _
      · exact (h.queue p hp).append _
    · rw [ofService, List.filterMap_append, List.flatMap_append] at hr
      rcases List.mem_append.mp hr with hr | hr
      · obtain ⟨p, hp, heq⟩ := h.requests r hr hmine
        exact ⟨p, hp.append _, heq⟩
      · rw [← ofService, hnone] at hr
        cases hr
  | service b t hb hthreads hid hserver hclient hfrom =>
    have hsame : ofService ((Service.seen E s.service b).map (Seen.service (ι := ι))).toList
        = (Service.seen E s.service b).toList := by
      cases Service.seen E s.service b <;> rfl
    obtain ⟨sent, hsent, hasked⟩ := h.toServer
    refine ⟨by rw [hid]; exact h.socket, fun p hp => ?_,
      ⟨sent, hserver sent hsent, fun p hp => (hasked p hp).append _⟩, fun p hp => ?_,
      fun r hr hmine => ?_⟩
    · rw [hthreads] at hp
      exact (h.queue p hp).append _
    · rcases hclient p hp with hp | hp
      · exact (h.toClient p hp).append _
      · obtain ⟨a, ha, hsocket, rfl⟩ := mem_sentTo hp
        refine Or.inr ⟨a, ?_, by rw [hsocket]; exact h.socket, rfl⟩
        rw [ofService, List.filterMap_append, List.flatMap_append, ← ofService, ← ofService, hsame]
        exact List.mem_append_right _ ha
    · rw [ofService, List.filterMap_append, List.flatMap_append, ← ofService, ← ofService,
        hsame] at hr
      rcases List.mem_append.mp hr with hr | hr
      · obtain ⟨p, hp, heq⟩ := h.requests r hr hmine
        exact ⟨p, hp.append _, heq⟩
      · obtain ⟨p, id, hrec, heq⟩ := requests_seen hr
        exact ⟨p, (hasked p (hfrom _ p id hrec hmine sent hsent)).append _, heq⟩
  | network t hthreads hservice hid hserver hclient =>
    rw [Option.toList_none, List.append_nil]
    obtain ⟨sent, hsent, hasked⟩ := h.toServer
    obtain ⟨sent', hsent', hmem⟩ := hserver sent hsent
    refine ⟨hid h.socket, fun p hp => ?_, ⟨sent', hsent', fun p hp => hasked p (hmem p hp)⟩,
      fun p hp => ?_, h.requests⟩
    · rw [hthreads] at hp
      exact h.queue p hp
    · rcases hclient p hp with hp | hop
      · exact h.toClient p hp
      · exact Or.inl hop

variable {ok : Connection ι → Step ι → Connection ι → Prop}

end Connection

end TransDB
