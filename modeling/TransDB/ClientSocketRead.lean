/-
`ClientSocket::OnRead`: the stream of a client, cut into packets.

The socket layer appends what it receives to a ring buffer and calls `OnRead`, which
copies the bytes of the current packet to a buffer of its own and hands the packet on
when it has all of them. One turn copies the first contiguous region of the ring only.
When the rest of the packet is in the ring but goes on behind the end of the region,
`OnRead` returns as if it had not come yet, and the packet waits for the next bytes.

The ring is part of the missing `shared/` code. It is a queue of bytes here, and how
many of them are in its first region is left open (`Contiguous`).
-/
import TransDB.Packet
import Mathlib.Data.List.Infix

set_option autoImplicit false

namespace TransDB

open ByteList

/-! ## The code -/

/-- The handlers of a client's packets. -/
inductive ClientSocketHandler
  | QueueWritePacket
  | QueueReadPacket
  | HandlePong
  | HandleGetActivityID
  deriving DecidableEq, Repr

open ClientSocketHandler in
/-- `m_ClientSocketHandlers`, indexed by opcode. -/
def m_ClientSocketHandlers : List (Option ClientSocketHandler) :=
  [none,
    some QueueWritePacket, none, some QueueReadPacket, none, some QueueWritePacket, none,
    some QueueWritePacket, none, some HandlePong, none, some QueueWritePacket, none,
    some QueueReadPacket, none, some HandleGetActivityID, none, some QueueWritePacket, none,
    some QueueWritePacket, none, some QueueWritePacket, none, some QueueWritePacket, none,
    some QueueReadPacket, none, some QueueReadPacket, none, some QueueReadPacket, none,
    some QueueReadPacket, none]

/-- A packet that has been taken off the stream: passed to its handler, or logged as
unknown when the opcode has none. -/
structure Processed where
  handler : Option ClientSocketHandler
  packet : Packet
  deriving DecidableEq, Repr

/-- `m_opcode < OP_NUM && m_ClientSocketHandlers[m_opcode] != NULL` -/
def dispatch (p : Packet) : Processed where
  handler := m_ClientSocketHandlers[p.opcode.toNat]?.join
  packet := p

/-- `GetContiguiousBytes` over the turns of one call of `OnRead`, by the number of the
turn and of the bytes in the ring: none only when there are none. -/
structure Contiguous where
  count : ℕ → ℕ → ℕ
  pos : ∀ turn size, 0 < size → 0 < count turn size
  le : ∀ turn size, count turn size ≤ size

/-- The fields of `ClientSocket` that `OnRead` works on, and what it has processed. -/
structure ClientSocketIn where
  m_size : ℕ
  m_opcode : UInt16
  m_pReceiveBuff : List UInt8
  m_readBuffer : List UInt8
  processed : List Processed
  deriving DecidableEq, Repr

namespace ClientSocketIn

/-- `ClientSocket::ClientSocket` -/
def new : ClientSocketIn := ⟨0, 0, [], [], []⟩

/-- Bytes that the socket layer has put into the ring. -/
def receive (s : ClientSocketIn) (chunk : List UInt8) : ClientSocketIn :=
  { s with m_readBuffer := s.m_readBuffer ++ chunk }

/-- The start of a turn: the header, unless there is one already. `none` is the return
that waits for it. -/
def readHeader (s : ClientSocketIn) : Option ClientSocketIn :=
  if s.m_size = 0 then
    --wait for header
    if s.m_readBuffer.length < sizeofPackerHeader then none
    else
      let rHeader := PackerHeader.ofBytes (s.m_readBuffer.take sizeofPackerHeader)
      some { s with
        m_size := rHeader.m_size
        m_opcode := rHeader.m_opcode
        m_readBuffer := s.m_readBuffer.drop sizeofPackerHeader }
  else some s

/-- `m_size - m_pReceiveBuff->wpos` -/
def remainingBytes (s : ClientSocketIn) : ℕ := s.m_size - s.m_pReceiveBuff.length

/-- Append data to internal buffer. -/
def appendData (s : ClientSocketIn) (contiguiousBytes : ℕ) : ClientSocketIn :=
  let readBytes := min s.remainingBytes contiguiousBytes
  { s with
    m_pReceiveBuff := s.m_pReceiveBuff ++ s.m_readBuffer.take readBytes
    m_readBuffer := s.m_readBuffer.drop readBytes }

/-- Process packet, and clear the variables. -/
def processPacket (s : ClientSocketIn) : ClientSocketIn :=
  { s with
    processed := s.processed ++ [dispatch ⟨s.m_opcode, s.m_pReceiveBuff⟩]
    m_size := 0
    m_opcode := 0
    m_pReceiveBuff := [] }

/-- The loop of `OnRead`. -/
def onReadLoop (ring : Contiguous) : ℕ → ℕ → ClientSocketIn → Option ClientSocketIn
  | 0, _, _ => none
  | fuel + 1, turn, s =>
    match s.readHeader with
    | none => some s
    | some s =>
      let s := s.appendData (ring.count turn s.m_readBuffer.length)
      --wait for whole packet
      if s.m_pReceiveBuff.length < s.m_size then some s
      else onReadLoop ring fuel (turn + 1) s.processPacket

/-- `ClientSocket::OnRead` -/
def OnRead (ring : Contiguous) (s : ClientSocketIn) : Option ClientSocketIn :=
  onReadLoop ring (s.m_readBuffer.length + 1) 0 s

/-- Receive events, each followed by a call of `OnRead`. -/
def run : ClientSocketIn → List (List UInt8 × Contiguous) → Option ClientSocketIn
  | s, [] => some s
  | s, (chunk, ring) :: events => ((s.receive chunk).OnRead ring).bind fun s => run s events

/-! ## Turns that see the rest of the packet -/

/-- When the rest of the packet is in the ring, it is in its first region. -/
def Covers (contiguiousBytes : ℕ) (s : ClientSocketIn) : Prop :=
  s.remainingBytes ≤ s.m_readBuffer.length → s.remainingBytes ≤ contiguiousBytes

/-- This is so in every turn of the loop. -/
def AllCovered (ring : Contiguous) : ℕ → ℕ → ClientSocketIn → Prop
  | 0, _, _ => True
  | fuel + 1, turn, s =>
    match s.readHeader with
    | none => True
    | some s =>
      Covers (ring.count turn s.m_readBuffer.length) s ∧
        let s := s.appendData (ring.count turn s.m_readBuffer.length)
        if s.m_pReceiveBuff.length < s.m_size then True
        else AllCovered ring fuel (turn + 1) s.processPacket

/-- Every turn of a call of `OnRead`. -/
def Covered (ring : Contiguous) (s : ClientSocketIn) : Prop :=
  AllCovered ring (s.m_readBuffer.length + 1) 0 s

/-! ## Where a socket stands in the stream -/

/-- The bytes of the packets that are not processed yet, as far as they have come. -/
def unfinished (s : ClientSocketIn) : List UInt8 :=
  (if s.m_size = 0 then [] else PackerHeader.toBytes ⟨s.m_size, s.m_opcode⟩)
    ++ s.m_pReceiveBuff ++ s.m_readBuffer

/-- `s` has the header of `q`, whose payload it is copying; the packets behind it
are `qs`. -/
structure Reading (s : ClientSocketIn) (q : Packet) (qs : List Packet) : Prop where
  size : s.m_size = q.payload.length
  opcode : s.m_opcode = q.opcode
  buff : s.m_pReceiveBuff.length ≤ q.payload.length
  stream : s.m_pReceiveBuff ++ s.m_readBuffer <+: q.payload ++ Packet.encodeAll qs

/-- The packets that `s` has still to process are `qs`: it waits for a header, or is in
the middle of the first of them. -/
inductive At (s : ClientSocketIn) : List Packet → Prop
  | idle (qs : List Packet) (hsize : s.m_size = 0) (hbuff : s.m_pReceiveBuff = [])
    (hring : s.m_readBuffer <+: Packet.encodeAll qs) : At s qs
  | busy (q : Packet) (qs : List Packet) (h : s.Reading q qs)
    (hlt : s.m_pReceiveBuff.length < q.payload.length) : At s (q :: qs)

variable {s s' : ClientSocketIn} {q : Packet} {qs : List Packet}

theorem Reading.unfinished_eq (h : s.Reading q qs) (hne : s.m_size ≠ 0) :
    s.unfinished = q.header.toBytes ++ (s.m_pReceiveBuff ++ s.m_readBuffer) := by
  rw [unfinished, if_neg hne, h.size, h.opcode, List.append_assoc]
  rfl

theorem unfinished_idle (hsize : s.m_size = 0) (hbuff : s.m_pReceiveBuff = []) :
    s.unfinished = s.m_readBuffer := by
  rw [unfinished, if_pos hsize, hbuff, List.nil_append, List.nil_append]

/-- A header that is waited for is not there. -/
theorem At.readHeader_none (h : s.At qs) (hn : s.readHeader = none) :
    Packet.complete qs s.unfinished.length = [] := by
  rw [readHeader] at hn
  split at hn
  · next hsize =>
    split at hn
    · next hshort =>
      cases h with
      | idle _ _ hbuff _ =>
        rw [unfinished_idle hsize hbuff]
        exact Packet.complete_short qs hshort
      | busy q qs hr hlt =>
        have heq := hr.size
        omega
    · cases hn
  · cases hn

/-- Once there is a header, `s` is reading the first packet. -/
theorem At.readHeader_some (hqs : ∀ q ∈ qs, q.Sized) (h : s.At qs) (hr : s.readHeader = some s') :
    ∃ q rest, qs = q :: rest ∧ s'.Reading q rest ∧ s'.processed = s.processed
      ∧ s.unfinished = q.header.toBytes ++ (s'.m_pReceiveBuff ++ s'.m_readBuffer)
      ∧ s'.m_readBuffer.length ≤ s.m_readBuffer.length
      ∧ (s'.remainingBytes = 0 → s'.m_readBuffer.length < s.m_readBuffer.length) := by
  rw [readHeader] at hr
  cases h with
  | idle _ hsize hbuff hring =>
    rw [if_pos hsize] at hr
    split at hr
    · cases hr
    · next hlen =>
      cases qs with
      | nil =>
        have hnil := List.prefix_nil.mp hring
        rw [hnil] at hlen
        exact absurd (by decide) hlen
      | cons q rest =>
        -- the first bytes of the ring are the header of `q`
        obtain ⟨tail, htail⟩ := hring
        rw [Packet.encodeAll_cons, Packet.encode, List.append_assoc] at htail
        have hcut := congrArg (List.take sizeofPackerHeader) htail
        rw [List.take_append_of_le_length (Nat.not_lt.mp hlen),
          List.take_left' (PackerHeader.length_toBytes _)] at hcut
        have hrest := congrArg (List.drop sizeofPackerHeader) htail
        rw [List.drop_append_of_le_length (Nat.not_lt.mp hlen),
          List.drop_left' (PackerHeader.length_toBytes _)] at hrest
        have hhead : PackerHeader.ofBytes (s.m_readBuffer.take sizeofPackerHeader) = q.header := by
          rw [hcut]
          exact PackerHeader.ofBytes_toBytes (hqs q List.mem_cons_self)
        cases hr
        refine ⟨q, rest, rfl, ⟨by rw [hhead]; rfl, by rw [hhead]; rfl, ?_, ?_⟩, rfl, ?_, ?_, ?_⟩
        · show s.m_pReceiveBuff.length ≤ _
          rw [hbuff]
          exact Nat.zero_le _
        · show s.m_pReceiveBuff ++ s.m_readBuffer.drop sizeofPackerHeader <+: _
          rw [hbuff, List.nil_append]
          exact ⟨tail, hrest⟩
        · show _ = q.header.toBytes ++ (s.m_pReceiveBuff ++ s.m_readBuffer.drop sizeofPackerHeader)
          rw [unfinished_idle hsize hbuff, hbuff, List.nil_append, ← hcut, List.take_append_drop]
        · show (s.m_readBuffer.drop sizeofPackerHeader).length ≤ _
          rw [List.length_drop]
          exact Nat.sub_le _ _
        · intro _
          show (s.m_readBuffer.drop sizeofPackerHeader).length < _
          rw [List.length_drop]
          rw [sizeofPackerHeader] at hlen ⊢
          omega
  | busy q rest hreading hlt =>
    have hne : s.m_size ≠ 0 := by
      have heq := hreading.size
      omega
    rw [if_neg hne] at hr
    cases hr
    refine ⟨q, rest, rfl, hreading, rfl, hreading.unfinished_eq hne, Nat.le_refl _, ?_⟩
    intro hzero
    have heq := hreading.size
    rw [remainingBytes] at hzero
    omega

/-! ## One turn -/

/-- Copying moves bytes from the ring to the buffer. -/
theorem appendData_stream (s : ClientSocketIn) (c : ℕ) :
    (s.appendData c).m_pReceiveBuff ++ (s.appendData c).m_readBuffer
      = s.m_pReceiveBuff ++ s.m_readBuffer := by
  rw [appendData, List.append_assoc, List.take_append_drop]

theorem length_appendData {c : ℕ} (hc : c ≤ s.m_readBuffer.length) :
    (s.appendData c).m_pReceiveBuff.length
      = s.m_pReceiveBuff.length + min s.remainingBytes c := by
  rw [appendData, List.length_append, List.length_take,
    Nat.min_eq_left (Nat.le_trans (Nat.min_le_right _ _) hc)]

theorem Reading.appendData (h : s.Reading q qs) {c : ℕ} (hc : c ≤ s.m_readBuffer.length) :
    (s.appendData c).Reading q qs := by
  refine ⟨h.size, h.opcode, ?_, ?_⟩
  · have hlen := length_appendData hc
    have hsize := h.size
    have hbuff := h.buff
    rw [remainingBytes] at hlen
    omega
  · rw [appendData_stream]
    exact h.stream

/-- A turn that leaves the packet unfinished. It had no way to finish it exactly when the
region covered what there was. -/
theorem Reading.waits (h : s.Reading q qs) {c : ℕ} (hc : c ≤ s.m_readBuffer.length)
    (hlt : (s.appendData c).m_pReceiveBuff.length < (s.appendData c).m_size) :
    (s.appendData c).At (q :: qs)
      ∧ (s.appendData c).unfinished
        = q.header.toBytes ++ (s.m_pReceiveBuff ++ s.m_readBuffer)
      ∧ (Covers c s ↔ Packet.complete (q :: qs) (s.appendData c).unfinished.length = []) := by
  have hr := h.appendData hc
  have hne : (s.appendData c).m_size ≠ 0 := by omega
  have hun := hr.unfinished_eq hne
  rw [appendData_stream] at hun
  have hlen := length_appendData hc
  have hsize : s.m_size = q.payload.length := h.size
  have hsize' : (s.appendData c).m_size = q.payload.length := hr.size
  have hbuff := h.buff
  refine ⟨.busy q qs hr (by omega), hun, ?_⟩
  rw [Packet.complete_cons_eq_nil, hun, List.length_append, List.length_append,
    PackerHeader.length_toBytes, Covers]
  rw [remainingBytes] at hlen ⊢
  omega

/-- A turn that finishes the packet. -/
theorem Reading.finishes (h : s.Reading q qs) {c : ℕ} (hc : c ≤ s.m_readBuffer.length)
    (hge : ¬ (s.appendData c).m_pReceiveBuff.length < (s.appendData c).m_size) :
    (s.appendData c).processPacket.At qs
      ∧ (s.appendData c).processPacket.processed = s.processed ++ [dispatch q]
      ∧ q.header.toBytes ++ (s.m_pReceiveBuff ++ s.m_readBuffer)
        = q.encode ++ (s.appendData c).processPacket.unfinished
      ∧ (s.appendData c).processPacket.m_readBuffer.length + s.remainingBytes
        = s.m_readBuffer.length
      ∧ Covers c s := by
  have hr := h.appendData hc
  have hlen := length_appendData hc
  have hsize := h.size
  have hsize' := hr.size
  have hbuff := h.buff
  have hbuff' := hr.buff
  have hstream := appendData_stream s c
  have hwhole : (s.appendData c).m_pReceiveBuff.length = q.payload.length := by omega
  -- the buffer is the payload, and the ring goes on behind it
  obtain ⟨tail, htail⟩ := hr.stream
  rw [List.append_assoc] at htail
  obtain ⟨hpayload, hring⟩ := List.append_inj htail hwhole
  have hpacket : (⟨(s.appendData c).m_opcode, (s.appendData c).m_pReceiveBuff⟩ : Packet) = q := by
    rw [hpayload, hr.opcode]
  have hun : (s.appendData c).processPacket.unfinished = (s.appendData c).m_readBuffer :=
    unfinished_idle rfl rfl
  refine ⟨.idle qs rfl rfl ⟨tail, hring⟩, ?_, ?_, ?_, ?_⟩
  · show s.processed ++ [dispatch _] = _
    rw [hpacket]
  · rw [hun, Packet.encode, List.append_assoc, ← hpayload, hstream]
  · have hboth := congrArg List.length hstream
    rw [List.length_append, List.length_append] at hboth
    show (s.appendData c).m_readBuffer.length + s.remainingBytes = _
    rw [remainingBytes]
    omega
  · intro _
    rw [remainingBytes] at hlen ⊢
    omega

/-! ## One call, and a run -/

/-- What a call leaves: the packets `done` are processed, and it stands in front of
the others. -/
structure Took (s s' : ClientSocketIn) (done rest : List Packet) : Prop where
  atRest : s'.At rest
  processed : s'.processed = s.processed ++ done.map dispatch
  stream : s.unfinished = Packet.encodeAll done ++ s'.unfinished

theorem Took.cons {s1 s2 : ClientSocketIn} {done rest : List Packet} (h : Took s1 s2 done rest)
    (hproc : s1.processed = s.processed ++ [dispatch q])
    (hstream : s.unfinished = q.encode ++ s1.unfinished) : Took s s2 (q :: done) rest where
  atRest := h.atRest
  processed := by
    rw [h.processed, hproc, List.append_assoc]
    rfl
  stream := by
    rw [hstream, h.stream, Packet.encodeAll_cons, List.append_assoc]

/-- The loop processes packets until the next one is not there. What it leaves behind
is not whole exactly when every turn was covered. -/
theorem onReadLoop_spec (ring : Contiguous) (fuel : ℕ) :
    ∀ (turn : ℕ) (s : ClientSocketIn) (qs : List Packet), (∀ q ∈ qs, q.Sized) → s.At qs →
      s.m_readBuffer.length < fuel →
      ∃ s' done rest, onReadLoop ring fuel turn s = some s' ∧ qs = done ++ rest
        ∧ Took s s' done rest
        ∧ (AllCovered ring fuel turn s ↔ Packet.complete rest s'.unfinished.length = []) := by
  induction fuel with
  | zero =>
    intro turn s qs _ _ hfuel
    omega
  | succ fuel ih =>
    intro turn s qs hqs hat hfuel
    cases hread : s.readHeader with
    | none =>
      refine ⟨s, [], qs, by rw [onReadLoop, hread], rfl, ⟨hat, ?_, rfl⟩, ?_⟩
      · rw [List.map_nil, List.append_nil]
      · rw [AllCovered, hread]
        exact iff_of_true trivial (hat.readHeader_none hread)
    | some s1 =>
      obtain ⟨q, rest, rfl, hr, hproc, hun, hle, hprogress⟩ := hat.readHeader_some hqs hread
      obtain ⟨c, hcdef⟩ : ∃ c, c = ring.count turn s1.m_readBuffer.length := ⟨_, rfl⟩
      have hc : c ≤ s1.m_readBuffer.length := hcdef ▸ ring.le turn _
      rw [onReadLoop, AllCovered, hread]
      dsimp only
      rw [← hcdef]
      by_cases hlt : (s1.appendData c).m_pReceiveBuff.length < (s1.appendData c).m_size
      · obtain ⟨hwait, hun', hcov⟩ := hr.waits hc hlt
        rw [if_pos hlt, if_pos hlt]
        refine ⟨_, [], q :: rest, rfl, rfl, ⟨hwait, ?_, ?_⟩, ?_⟩
        · rw [List.map_nil, List.append_nil]
          exact hproc
        · rw [hun, hun']
          rfl
        · rw [← hcov]
          exact and_iff_left trivial
      · obtain ⟨hnext, hproc', hstream, hring, hcov⟩ := hr.finishes hc hlt
        rw [if_neg hlt, if_neg hlt]
        have hfuel' : (s1.appendData c).processPacket.m_readBuffer.length < fuel := by
          by_cases hzero : s1.remainingBytes = 0
          · have hdown := hprogress hzero
            omega
          · omega
        obtain ⟨s', done, rest', hloop, rfl, htook, hiff⟩ := ih (turn + 1) _ rest
          (fun x hx => hqs x (List.mem_cons_of_mem _ hx)) hnext hfuel'
        refine ⟨s', q :: done, rest', hloop, rfl, htook.cons ?_ ?_, ?_⟩
        · rw [hproc', hproc]
        · rw [hun, hstream]
        · rw [← hiff]
          exact and_iff_right hcov

/-- One call: `done` are the packets it takes off the stream. -/
theorem OnRead_spec (ring : Contiguous) (hqs : ∀ q ∈ qs, q.Sized) (hat : s.At qs) :
    ∃ s' done rest, s.OnRead ring = some s' ∧ qs = done ++ rest ∧ Took s s' done rest
      ∧ (Covered ring s ↔ Packet.complete rest s'.unfinished.length = []) :=
  onReadLoop_spec ring (s.m_readBuffer.length + 1) 0 s qs hqs hat (Nat.lt_succ_self _)

theorem receive_unfinished (s : ClientSocketIn) (chunk : List UInt8) :
    (s.receive chunk).unfinished = s.unfinished ++ chunk := by
  simp only [receive, unfinished, List.append_assoc]
  rfl

/-- More of the stream comes in. -/
theorem At.receive (h : s.At qs) {chunk : List UInt8}
    (hstream : s.unfinished ++ chunk <+: Packet.encodeAll qs) : (s.receive chunk).At qs := by
  cases h with
  | idle _ hsize hbuff hring =>
    rw [unfinished_idle hsize hbuff] at hstream
    exact .idle qs hsize hbuff hstream
  | busy q rest hr hlt =>
    have hne : s.m_size ≠ 0 := by
      have heq := hr.size
      omega
    rw [hr.unfinished_eq hne, Packet.encodeAll_cons, Packet.encode,
      List.append_assoc q.header.toBytes, List.append_assoc q.header.toBytes,
      List.prefix_append_right_inj, List.append_assoc] at hstream
    exact .busy q rest ⟨hr.size, hr.opcode, hr.buff, hstream⟩ hlt

/-- The state after some events, in front of the packets `rest`. -/
theorem run_spec {ps : List Packet} (hps : ∀ p ∈ ps, p.Sized)
    (events : List (List UInt8 × Contiguous)) :
    ∀ (s : ClientSocketIn) (done rest : List Packet), ps = done ++ rest → s.At rest →
      s.processed = done.map dispatch →
      Packet.encodeAll done ++ s.unfinished ++ events.flatMap Prod.fst <+: Packet.encodeAll ps →
      ∃ s' done' rest', run s events = some s' ∧ ps = done' ++ rest' ∧ s'.At rest'
        ∧ s'.processed = done'.map dispatch
        ∧ Packet.encodeAll done' ++ s'.unfinished
          = Packet.encodeAll done ++ s.unfinished ++ events.flatMap Prod.fst := by
  induction events with
  | nil =>
    intro s done rest hsplit hat hproc _
    exact ⟨s, done, rest, rfl, hsplit, hat, hproc, (List.append_nil _).symm⟩
  | cons e events ih =>
    intro s done rest hsplit hat hproc hstream
    obtain ⟨chunk, ring⟩ := e
    have hsplit' := hsplit
    subst hsplit'
    rw [List.flatMap_cons] at hstream
    have hrest : s.unfinished ++ chunk <+: Packet.encodeAll rest := by
      rw [Packet.encodeAll_append, List.append_assoc, List.prefix_append_right_inj,
        ← List.append_assoc] at hstream
      exact (List.prefix_append _ _).trans hstream
    obtain ⟨s1, done1, rest1, hcall, rfl, htook, -⟩ := OnRead_spec ring
      (fun q hq => hps q (List.mem_append_right _ hq)) (hat.receive hrest)
    have hbytes : Packet.encodeAll (done ++ done1) ++ s1.unfinished
        = Packet.encodeAll done ++ s.unfinished ++ chunk := by
      rw [Packet.encodeAll_append, List.append_assoc, ← htook.stream, receive_unfinished,
        List.append_assoc]
    obtain ⟨s', done', rest', hrun, hps', hat', hproc', hstream'⟩ := ih s1 (done ++ done1) rest1
      (List.append_assoc _ _ _).symm htook.atRest
      (by
        rw [htook.processed, List.map_append, ← hproc]
        rfl)
      (by rwa [hbytes, List.append_assoc])
    refine ⟨s', done', rest', ?_, hps', hat', hproc', ?_⟩
    · rw [run, hcall, Option.bind_some, hrun]
    · rw [hstream', hbytes, List.flatMap_cons, List.append_assoc _ chunk]

/-- **What is processed is what has come.** In a run over the packets `ps`, a call of
`OnRead` leaves exactly the packets processed whose last byte has been received, if and
only if every turn of the call has the rest of its packet in the first region of the ring
when it has it at all. -/
theorem on_read_exact_iff {ps : List Packet} (hps : ∀ p ∈ ps, p.Sized)
    {events : List (List UInt8 × Contiguous)} (chunk : List UInt8) (ring : Contiguous)
    (hstream : events.flatMap Prod.fst ++ chunk <+: Packet.encodeAll ps) :
    ∃ s t, run new events = some s ∧ (s.receive chunk).OnRead ring = some t
      ∧ (t.processed
          = (Packet.complete ps (events.flatMap Prod.fst ++ chunk).length).map dispatch
        ↔ Covered ring (s.receive chunk)) := by
  obtain ⟨s, done, rest, hrun, rfl, hat, hproc, hbytes⟩ := run_spec hps events new [] ps rfl
    (.idle ps rfl rfl (List.nil_prefix)) rfl ((List.prefix_append _ _).trans hstream)
  have hbytes' : Packet.encodeAll done ++ s.unfinished = events.flatMap Prod.fst := hbytes
  have hrest : s.unfinished ++ chunk <+: Packet.encodeAll rest := by
    rw [← hbytes', Packet.encodeAll_append, List.append_assoc,
      List.prefix_append_right_inj] at hstream
    exact hstream
  obtain ⟨t, done1, rest1, hcall, rfl, htook, hiff⟩ := OnRead_spec ring
    (fun q hq => hps q (List.mem_append_right _ hq)) (hat.receive hrest)
  refine ⟨s, t, hrun, hcall, ?_⟩
  have hlen : (events.flatMap Prod.fst ++ chunk).length
      = (Packet.encodeAll (done ++ done1)).length + t.unfinished.length := by
    rw [← List.length_append, Packet.encodeAll_append, List.append_assoc, ← htook.stream,
      receive_unfinished, ← List.append_assoc, hbytes']
  have hall : t.processed = (done ++ done1).map dispatch := by
    rw [htook.processed, List.map_append, ← hproc]
    rfl
  have hmap : (done ++ done1 ++ Packet.complete rest1 t.unfinished.length).map dispatch
      = (done ++ done1).map dispatch
        ++ (Packet.complete rest1 t.unfinished.length).map dispatch := List.map_append
  rw [hiff, hlen, ← List.append_assoc, Packet.complete_append, hall, hmap]
  constructor
  · intro heq
    have hnil := List.self_eq_append_right.mp heq
    exact List.map_eq_nil_iff.mp hnil
  · intro hnil
    rw [hnil, List.map_nil, List.append_nil]

/-- A ring without a wrap, and one whose first region has a single byte. -/
def Contiguous.whole : Contiguous := ⟨fun _ size => size, fun _ _ h => h, fun _ _ => Nat.le_refl _⟩

def Contiguous.oneByte : Contiguous :=
  ⟨fun _ size => min size 1, fun _ _ h => Nat.lt_min.mpr ⟨h, Nat.one_pos⟩,
    fun _ _ => Nat.min_le_left _ _⟩

/-- A pong of two bytes, in two pieces that cut its header. -/
theorem on_read_exact_iff_pieces :
    ∃ s t, run new [([2, 0, 0, 0, 9], Contiguous.whole)] = some s
      ∧ (s.receive [0, 1, 2]).OnRead Contiguous.whole = some t
      ∧ t.processed = [⟨some .HandlePong, ⟨9, [1, 2]⟩⟩] := by
  have hsized : ∀ p ∈ [(⟨9, [1, 2]⟩ : Packet)], p.Sized := by
    intro p hp
    rw [List.mem_singleton.mp hp, Packet.Sized]
    decide
  have hstream : [([2, 0, 0, 0, 9], Contiguous.whole)].flatMap Prod.fst ++ [0, 1, 2]
      <+: Packet.encodeAll [⟨9, [1, 2]⟩] := ⟨[], by decide⟩
  obtain ⟨s, t, hrun, hcall, hiff⟩ := on_read_exact_iff hsized [0, 1, 2] Contiguous.whole hstream
  refine ⟨s, t, hrun, hcall, hiff.mpr ?_⟩
  have hs : s = ⟨0, 0, [], [2, 0, 0, 0, 9], []⟩ := Option.some.inj (hrun.symm.trans rfl)
  rw [hs]
  exact ⟨fun _ => Nat.le_refl _, trivial⟩

/-- The same pong in one piece, with the wrap of the ring behind the first byte of its
payload: all of it has been received, and nothing is processed. -/
theorem on_read_misses : ∃ t, (new.receive [2, 0, 0, 0, 9, 0, 1, 2]).OnRead Contiguous.oneByte = some t
    ∧ Packet.complete [⟨9, [1, 2]⟩] [2, 0, 0, 0, 9, 0, 1, 2].length = [⟨9, [1, 2]⟩]
    ∧ t.processed = [] ∧ t.m_readBuffer = [2] :=
  ⟨_, rfl, rfl, rfl, rfl⟩

end ClientSocketIn

end TransDB
