/-
The room a response needs in the write buffer.

A response goes to a socket with an empty write buffer, and its peer takes everything
there is before the sender tries again. `ClientSocketHolder` compares the size of the
payload with `SocketWriteBufferSize`, but `_OutPacket` puts the header in front of it,
so a payload of the last six sizes is not streamed and never fits: it waits in the
queue, and everything behind it. A longer payload is streamed in chunks of half the
buffer; after the first chunk every second one finds the buffer full, and as the
retries are counted over the whole stream, the 102nd ends it.

The write buffer belongs to the missing `shared/` code; `GetSpace` is what is left of
`SocketWriteBufferSize` (here `W`) behind the bytes the peer has not taken.
-/
import TransDB.ClientSocketSend
import Mathlib.Tactic.IntervalCases

set_option autoImplicit false

namespace TransDB

namespace ClientSocketOut

open ByteList

/-- A socket, and how many bytes its peer has not taken yet. -/
structure Connection where
  socket : ClientSocketOut
  buffered : ℕ

namespace Connection

/-- `ClientSocketHolder::SendPacket` of a buffer to a socket with an empty write buffer,
up to its first chunk. Meanwhile the peer takes `take` bytes. -/
def SendPacket (W take : ℕ) (s : ClientSocketOut) (p : Packet) : Option Connection :=
  (s.step (.sendBuffer p W W W)).map fun t => ⟨t, t.written.length - s.written.length - take⟩

/-- One more step of the thread that has the lock. The peer takes `take` bytes after a
chunk that has been sent, and all there is before a retry. -/
def turn (W take : ℕ) (c : Connection) : Connection :=
  match c.socket.holder with
  | .streaming p chunkSize rpos sendCounter =>
    let sendDataSize := min (p.payload.length - rpos) chunkSize
    let socket := c.socket.chunkTurn p chunkSize rpos sendCounter (W - c.buffered)
    if W - c.buffered < sendDataSize then ⟨socket, 0⟩
    else ⟨socket, c.buffered + sendDataSize - take⟩
  | .queueing _ => { c with socket := (c.socket.step .queuePacket).getD c.socket }
  | _ => c

/-- The next turns; `take` is what the peer takes in each. -/
def turns (W : ℕ) : ℕ → (ℕ → ℕ) → Connection → Connection
  | 0, _, c => c
  | n + 1, take, c => turns W n (fun m => take (m + 1)) (turn W (take 0) c)

end Connection

open Connection

/-- The whole frame is in the write buffer, the lock is free, and nothing is queued. -/
structure Sent (s : ClientSocketOut) (p : Packet) (t : ClientSocketOut) : Prop where
  holder : t.holder = .free
  written : t.written = s.written ++ p.encode
  queue : t.m_packetQueue = s.m_packetQueue

/-- `SendPacket` sends the response, whatever the peer takes between two chunks. -/
def Sends (W : ℕ) (s : ClientSocketOut) (p : Packet) : Prop :=
  ∀ take : ℕ → ℕ, ∃ c, SendPacket W (take 0) s p = some c
    ∧ ∃ n, Sent s p (turns W n (fun m => take (m + 1)) c).socket

/-! ## A stream -/

/-- The stream of `p` has sent `i` chunks and waited `k` times. -/
structure Streams (W : ℕ) (s : ClientSocketOut) (p : Packet) (i k : ℕ) (c : Connection) : Prop where
  holder : c.socket.holder = .streaming p (W / 2) (i * (W / 2)) k
  connected : c.socket.connected = true
  queue : c.socket.m_packetQueue = s.m_packetQueue
  written : c.socket.written = s.written ++ (p.header.toBytes ++ p.payload.take (i * (W / 2)))
  more : i * (W / 2) < p.payload.length

/-- The stream has been given up. -/
structure GivenUp (s : ClientSocketOut) (p : Packet) (t : ClientSocketOut) : Prop where
  holder : t.holder = .free
  written : t.written ≠ s.written ++ p.encode

namespace Streams

variable {W : ℕ} {s : ClientSocketOut} {p : Packet} {i k : ℕ} {c : Connection}

/-- The size of the next chunk. -/
def next (W : ℕ) (p : Packet) (i : ℕ) : ℕ := min (p.payload.length - i * (W / 2)) (W / 2)

theorem length_next (h : Streams W s p i k c) :
    (slice p.payload (i * (W / 2)) (next W p i)).length = next W p i := by
  have hmore := h.more
  refine length_slice _ _ _ ?_
  rw [next]
  omega

theorem is_connected (h : Streams W s p i k c) : ¬ c.socket.connected = false := by
  rw [h.connected]
  decide

/-- A chunk that finds no room. -/
theorem turn_full (h : Streams W s p i k c) (hfull : W - c.buffered < next W p i) (take : ℕ) :
    turn W take c = ⟨if 100 < k then { c.socket with holder := .free }
      else { c.socket with holder := .streaming p (W / 2) (i * (W / 2)) (k + 1) }, 0⟩ := by
  have hout : c.socket.SendRawData (W - c.buffered) (slice p.payload (i * (W / 2)) (next W p i))
      = (.NO_ROOM_IN_BUFFER, c.socket) := by
    rw [SendRawData, if_neg h.is_connected, h.length_next, if_pos hfull]
  rw [next] at hout hfull
  rw [turn, h.holder]
  simp only [chunkTurn, hout, if_pos hfull]

theorem turn_retry (h : Streams W s p i k c) (hfull : W - c.buffered < next W p i)
    (hk : ¬ 100 < k) (take : ℕ) :
    Streams W s p i (k + 1) (turn W take c) ∧ (turn W take c).buffered = 0 := by
  rw [h.turn_full hfull, if_neg hk]
  exact ⟨⟨rfl, h.connected, h.queue, h.written, h.more⟩, rfl⟩

theorem turn_giveUp (h : Streams W s p i k c) (hfull : W - c.buffered < next W p i)
    (hk : 100 < k) (take : ℕ) : GivenUp s p (turn W take c).socket := by
  rw [h.turn_full hfull, if_pos hk]
  refine ⟨rfl, fun heq => ?_⟩
  -- less than the payload has been written
  have hwritten : s.written ++ (p.header.toBytes ++ p.payload.take (i * (W / 2)))
      = s.written ++ p.encode := h.written.symm.trans heq
  have hpayload : p.payload.take (i * (W / 2)) = p.payload :=
    List.append_cancel_left (List.append_cancel_left hwritten)
  have hlen := congrArg List.length hpayload
  have hmore := h.more
  rw [List.length_take] at hlen
  omega

/-- A chunk that is sent. -/
theorem turn_room (h : Streams W s p i k c) (hroom : ¬ W - c.buffered < next W p i) (take : ℕ) :
    turn W take c = ⟨{ c.socket with
        written := s.written ++ (p.header.toBytes ++ p.payload.take (i * (W / 2) + next W p i))
        holder := if i * (W / 2) + next W p i < p.payload.length then
          .streaming p (W / 2) (i * (W / 2) + next W p i) k else .free },
      c.buffered + next W p i - take⟩ := by
  have hout : c.socket.SendRawData (W - c.buffered) (slice p.payload (i * (W / 2)) (next W p i))
      = (.SUCCESS, { c.socket with
          written := s.written ++ (p.header.toBytes
            ++ p.payload.take (i * (W / 2) + next W p i)) }) := by
    rw [SendRawData, if_neg h.is_connected, h.length_next, if_neg hroom, h.written, take_add_slice]
    simp only [List.append_assoc]
  obtain ⟨n, hn⟩ : ∃ n, n = next W p i := ⟨_, rfl⟩
  rw [← hn] at hout hroom ⊢
  rw [next] at hn
  rw [turn, h.holder]
  simp only [chunkTurn, ← hn, hout, if_neg hroom]
  split <;> rfl

theorem turn_chunk (h : Streams W s p i k c) (hroom : ¬ W - c.buffered < next W p i)
    (hmore : (i + 1) * (W / 2) < p.payload.length) (take : ℕ) :
    Streams W s p (i + 1) k (turn W take c)
      ∧ (turn W take c).buffered = c.buffered + W / 2 - take := by
  rw [Nat.succ_mul] at hmore
  have hnext : next W p i = W / 2 := by
    rw [next]
    omega
  rw [h.turn_room hroom, hnext, if_pos hmore, ← Nat.succ_mul]
  refine ⟨⟨rfl, h.connected, h.queue, rfl, ?_⟩, rfl⟩
  rw [Nat.succ_mul]
  exact hmore

theorem turn_last (h : Streams W s p i k c) (hroom : ¬ W - c.buffered < next W p i)
    (hlast : ¬ (i + 1) * (W / 2) < p.payload.length) (take : ℕ) :
    Sent s p (turn W take c).socket := by
  rw [Nat.succ_mul] at hlast
  have hmore := h.more
  have hnext : i * (W / 2) + next W p i = p.payload.length := by
    rw [next]
    omega
  rw [h.turn_room hroom, hnext, if_neg (Nat.lt_irrefl _), List.take_length]
  exact ⟨rfl, rfl, h.queue⟩

end Streams

/-! ## The waits of a stream -/

/-- What the buffer holds at most: everything written so far before the first wait, and
the chunks since the last wait after it. Between two waits there are two chunks. -/
structure Progress (W i k buffered : ℕ) : Prop where
  waits : k ≤ 101
  held : k = 0 ∧ buffered ≤ i * (W / 2) + sizeofPackerHeader
    ∨ 1 ≤ k ∧ ∃ j, 2 * k + j ≤ i + 1 ∧ buffered ≤ j * (W / 2)

namespace Progress

variable {W i k buffered n : ℕ}

theorem start (take : ℕ) : Progress W 0 0 (sizeofPackerHeader - take) :=
  ⟨by decide, Or.inl ⟨rfl, by rw [Nat.zero_mul]; omega⟩⟩

/-- Two chunks have gone into the buffer since the last wait. -/
theorem full (h : Progress W i k buffered) (hW : 12 ≤ W) (hn : n ≤ W / 2)
    (hfull : W - buffered < n) : 2 * k + 1 ≤ i := by
  rcases h.held with ⟨rfl, hheld⟩ | ⟨hk, j, hj, hheld⟩
  · by_cases hi : i = 0
    · rw [hi, Nat.zero_mul, sizeofPackerHeader] at hheld
      omega
    · omega
  · by_cases hj2 : 2 ≤ j
    · omega
    · have hle : j * (W / 2) ≤ 1 * (W / 2) := Nat.mul_le_mul_right _ (by omega)
      omega

theorem retry (h : Progress W i k buffered) (hW : 12 ≤ W) (hn : n ≤ W / 2)
    (hfull : W - buffered < n) (hk : ¬ 100 < k) : Progress W i (k + 1) 0 := by
  have hi := h.full hW hn hfull
  exact ⟨by omega, Or.inr ⟨by omega, 0, by omega, Nat.zero_le _⟩⟩

theorem chunk (h : Progress W i k buffered) (take : ℕ) :
    Progress W (i + 1) k (buffered + W / 2 - take) := by
  refine ⟨h.waits, h.held.imp ?_ ?_⟩
  · rintro ⟨hk, hheld⟩
    rw [Nat.succ_mul]
    exact ⟨hk, by omega⟩
  · rintro ⟨hk, j, hj, hheld⟩
    refine ⟨hk, j + 1, by omega, ?_⟩
    rw [Nat.succ_mul]
    omega

/-- A payload of 203 chunks is never given up, nor one byte more if the buffer has an odd
size. -/
theorem not_giveUp {size : ℕ} (h : Progress W i k buffered) (hW : 12 ≤ W)
    (hsize : size ≤ 203 * (W / 2) + W % 2) (hmore : i * (W / 2) < size)
    (hfull : W - buffered < min (size - i * (W / 2)) (W / 2)) : ¬ 100 < k := by
  intro hk
  have hi := h.full hW (Nat.min_le_right _ _) hfull
  have hwaits := h.waits
  have hle : 203 * (W / 2) ≤ i * (W / 2) := Nat.mul_le_mul_right _ (by omega)
  -- it is chunk 203, of one byte
  have hi203 : i = 203 :=
    Nat.eq_of_mul_eq_mul_right (show 0 < W / 2 by omega) (by omega)
  rcases h.held with ⟨hk0, -⟩ | ⟨-, j, hj, hheld⟩
  · omega
  · have hj2 : j * (W / 2) ≤ 2 * (W / 2) := Nat.mul_le_mul_right _ (by omega)
    omega

end Progress

/-- The same with a peer that takes nothing before it has to. -/
structure Lazy (W i k buffered : ℕ) : Prop where
  waits : k ≤ 101
  held : k = 0 ∧ i ≤ 1 ∧ buffered = i * (W / 2) + sizeofPackerHeader
    ∨ 1 ≤ k ∧ ∃ j ≤ 2, i + 1 = 2 * k + j ∧ buffered = j * (W / 2)

namespace Lazy

variable {W i k buffered size : ℕ}

theorem start : Lazy W 0 0 sizeofPackerHeader :=
  ⟨by decide, Or.inl ⟨rfl, by decide, by rw [Nat.zero_mul, Nat.zero_add]⟩⟩

theorem retry (h : Lazy W i k buffered) (hW : 12 ≤ W)
    (hfull : W - buffered < min (size - i * (W / 2)) (W / 2)) (hk : ¬ 100 < k) :
    Lazy W i (k + 1) 0 := by
  have hi : i = 2 * k + 1 := by
    rcases h.held with ⟨rfl, hi, hheld⟩ | ⟨-, j, hj, hi, hheld⟩
    · interval_cases i
      · rw [sizeofPackerHeader] at hheld
        omega
      · rfl
    · interval_cases j <;> omega
  exact ⟨by omega, Or.inr ⟨by omega, 0, by omega, by omega, (Nat.zero_mul _).symm⟩⟩

/-- No chunk that has room is the last one. -/
theorem room (h : Lazy W i k buffered) (hW : 12 ≤ W) (hsize : 203 * (W / 2) + W % 2 < size)
    (hroom : ¬ W - buffered < min (size - i * (W / 2)) (W / 2)) :
    (i + 1) * (W / 2) < size ∧ Lazy W (i + 1) k (buffered + W / 2) := by
  have hwaits := h.waits
  rcases h.held with ⟨rfl, hi, hheld⟩ | ⟨hk, j, hj, hi, hheld⟩
  · rw [sizeofPackerHeader] at hheld
    interval_cases i
    · exact ⟨by omega, hwaits, Or.inl ⟨rfl, by decide, by rw [hheld, sizeofPackerHeader]; omega⟩⟩
    · omega
  · have hi203 : i ≤ 203 := by omega
    have hle : i * (W / 2) ≤ 203 * (W / 2) := Nat.mul_le_mul_right _ hi203
    have hj1 : j ≤ 1 := by
      by_contra hj2
      have hj2 : j = 2 := by omega
      rw [hj2] at hheld
      omega
    have hi202 : i + 1 ≤ 203 := by omega
    have hmore : (i + 1) * (W / 2) ≤ 203 * (W / 2) := Nat.mul_le_mul_right _ hi202
    refine ⟨by omega, hwaits, Or.inr ⟨hk, j + 1, by omega, by omega, ?_⟩⟩
    rw [hheld, Nat.succ_mul]

end Lazy

/-! ## Whole responses -/

section Response

variable {W : ℕ} {s : ClientSocketOut} {p : Packet}

/-- A stream that is not too long goes out. The induction is on the bytes that are left
and the waits that are left. -/
theorem Streams.sends (hW : 12 ≤ W) (hsize : p.payload.length ≤ 203 * (W / 2) + W % 2) {m i k : ℕ}
    {c : Connection} (h : Streams W s p i k c) (hprog : Progress W i k c.buffered)
    (hm : (p.payload.length - i * (W / 2)) * 102 + (101 - k) < m) (take : ℕ → ℕ) :
    ∃ n, Sent s p (turns W n take c).socket := by
  induction m generalizing i k c take with
  | zero => exact absurd hm (Nat.not_lt_zero _)
  | succ m ih =>
    have hmore := h.more
    by_cases hfull : W - c.buffered < next W p i
    · have hk : ¬ 100 < k := hprog.not_giveUp hW hsize hmore hfull
      obtain ⟨hnext, hbuffered⟩ := h.turn_retry hfull hk (take 0)
      have hprog' : Progress W i (k + 1) (turn W (take 0) c).buffered := by
        rw [hbuffered]
        exact hprog.retry hW (Nat.min_le_right _ _) hfull hk
      obtain ⟨n, hn⟩ := ih hnext hprog' (by omega) fun m => take (m + 1)
      exact ⟨n + 1, hn⟩
    · by_cases hlast : (i + 1) * (W / 2) < p.payload.length
      · obtain ⟨hnext, hbuffered⟩ := h.turn_chunk hfull hlast (take 0)
        have hprog' : Progress W (i + 1) k (turn W (take 0) c).buffered := by
          rw [hbuffered]
          exact hprog.chunk (take 0)
        have hless : (p.payload.length - (i + 1) * (W / 2)) * 102 + (101 - k) < m := by
          rw [Nat.succ_mul] at hlast ⊢
          omega
        obtain ⟨n, hn⟩ := ih hnext hprog' hless fun m => take (m + 1)
        exact ⟨n + 1, hn⟩
      · exact ⟨1, h.turn_last hfull hlast (take 0)⟩

/-- A stream that is too long is given up, when the peer takes nothing between the waits. -/
theorem Streams.givenUp (hW : 12 ≤ W) (hsize : 203 * (W / 2) + W % 2 < p.payload.length) {i k : ℕ}
    {c : Connection} (h : Streams W s p i k c) (hlazy : Lazy W i k c.buffered) (n : ℕ) :
    ¬ Sent s p (turns W n (fun _ => 0) c).socket := by
  have hstuck : ∀ (n : ℕ) (c : Connection), GivenUp s p c.socket →
      ¬ Sent s p (turns W n (fun _ => 0) c).socket := by
    intro n
    induction n with
    | zero => exact fun c hup hsent => hup.written hsent.written
    | succ n ih =>
      intro c hup
      refine ih (turn W 0 c) ?_
      rw [turn, hup.holder]
      exact hup
  induction n generalizing i k c with
  | zero =>
    intro hsent
    have hholder := hsent.holder
    rw [turns, h.holder] at hholder
    cases hholder
  | succ n ih =>
    by_cases hfull : W - c.buffered < next W p i
    · by_cases hk : 100 < k
      · exact hstuck n _ (h.turn_giveUp hfull hk 0)
      · obtain ⟨hnext, hbuffered⟩ := h.turn_retry hfull hk 0
        refine ih hnext ?_
        rw [hbuffered]
        exact hlazy.retry hW hfull hk
    · obtain ⟨hlast, hlazy'⟩ := hlazy.room hW hsize hfull
      obtain ⟨hnext, hbuffered⟩ := h.turn_chunk hfull hlast 0
      refine ih hnext ?_
      rw [hbuffered, Nat.sub_zero]
      exact hlazy'

variable (hfree : s.holder = .free) (hconn : s.connected = true)

include hfree hconn

/-- A payload that is larger than the buffer is streamed. -/
theorem sendPacket_streams (hW : 12 ≤ W) (hbig : W < p.payload.length) (take : ℕ) :
    ∃ c, SendPacket W take s p = some c ∧ Streams W s p 0 0 c
      ∧ c.buffered = sizeofPackerHeader - take := by
  have hconn' : ¬ s.connected = false := by
    rw [hconn]
    decide
  have hroom : ¬ W < sizeofPackerHeader := by
    rw [sizeofPackerHeader]
    omega
  refine ⟨⟨{ s with
      written := s.written ++ p.header.toBytes
      holder := .streaming p (W / 2) 0 0
      begun := s.begun ++ [p] }, sizeofPackerHeader - take⟩, ?_,
    ⟨?_, hconn, rfl, ?_, by omega⟩, rfl⟩
  · rw [SendPacket, step, hfree]
    simp only [if_pos hbig, SendRawData, if_neg hconn', if_neg hroom, Option.map_some,
      List.length_append, PackerHeader.length_toBytes, Nat.add_sub_cancel_left]
  · rw [Nat.zero_mul]
  · rw [Nat.zero_mul, List.take_zero, List.append_nil]

/-- A frame with room for its header goes out at once. -/
theorem sendPacket_sent (hfit : p.payload.length + sizeofPackerHeader ≤ W) (take : ℕ) :
    ∃ c, SendPacket W take s p = some c ∧ Sent s p c.socket := by
  have hconn' : ¬ s.connected = false := by
    rw [hconn]
    decide
  have hsmall : ¬ W < p.payload.length := by omega
  refine ⟨⟨{ s with written := s.written ++ p.encode, begun := s.begun ++ [p] },
    (s.written ++ p.encode).length - s.written.length - take⟩, ?_, ⟨hfree, rfl, rfl⟩⟩
  rw [SendPacket, step, hfree]
  simp only [if_neg hsmall, OutPacket, _OutPacket, if_neg hconn', if_neg (Nat.not_lt.mpr hfit),
    Option.map_some, hfree]

/-- Between the two sizes the response is queued. -/
theorem step_queued (hsmall : ¬ W < p.payload.length)
    (hbig : W < p.payload.length + sizeofPackerHeader) :
    s.step (.sendBuffer p W W W) = some { s with holder := .queueing p } := by
  have hconn' : ¬ s.connected = false := by
    rw [hconn]
    decide
  rw [step, hfree]
  simp only [if_neg hsmall, OutPacket, _OutPacket, if_neg hconn', if_pos hbig]

/-- And then it has not been sent. -/
theorem not_sends_queued (hsmall : ¬ W < p.payload.length)
    (hbig : W < p.payload.length + sizeofPackerHeader) : ¬ Sends W s p := by
  intro hsends
  obtain ⟨c, hc, n, hn⟩ := hsends fun _ => 0
  rw [SendPacket, step_queued hfree hconn hsmall hbig, Option.map_some, Option.some.injEq,
    Nat.sub_self] at hc
  have hkeep : ∀ (n : ℕ) (c : Connection), c.socket.holder = .free →
      (turns W n (fun _ => 0) c).socket = c.socket := by
    intro n
    induction n with
    | zero => exact fun c _ => rfl
    | succ n ih =>
      intro c hc
      have hturn : turn W 0 c = c := by rw [turn, hc]
      rw [turns, hturn]
      exact ih c hc
  have hwritten : (turns W n (fun _ => 0) c).socket.written = s.written := by
    rw [← hc]
    cases n with
    | zero => rfl
    | succ n =>
      show (turns W n (fun _ => 0) (turn W 0 ⟨{ s with holder := .queueing p }, 0⟩)).socket.written
        = s.written
      rw [hkeep n _ rfl]
      rfl
  have hlen := congrArg List.length (hn.written.symm.trans hwritten)
  rw [List.length_append, Packet.length_encode, sizeofPackerHeader] at hlen
  omega

/-- **Which responses are sent.** From an empty write buffer, to a peer that takes
everything before each retry: those that fit with their header, and of those that are
streamed the ones that are through before the 102nd wait. -/
theorem response_sent_iff (hW : 1024 ≤ W) :
    Sends W s p ↔ p.payload.length + sizeofPackerHeader ≤ W
      ∨ W < p.payload.length ∧ p.payload.length ≤ 203 * (W / 2) + W % 2 := by
  constructor
  · intro hsends
    by_cases hfit : p.payload.length + sizeofPackerHeader ≤ W
    · exact Or.inl hfit
    · by_cases hbig : W < p.payload.length
      · refine Or.inr ⟨hbig, ?_⟩
        by_contra hlong
        obtain ⟨c, hc, hst, hbuffered⟩ := sendPacket_streams hfree hconn (by omega) hbig 0
        obtain ⟨c', hc', n, hn⟩ := hsends fun _ => 0
        rw [hc, Option.some.injEq] at hc'
        rw [← hc'] at hn
        refine hst.givenUp (by omega) (Nat.lt_of_not_le hlong) ?_ n hn
        rw [hbuffered]
        exact Lazy.start
      · exact absurd hsends (not_sends_queued hfree hconn hbig (Nat.lt_of_not_le hfit))
  · rintro (hfit | ⟨hbig, hsize⟩) take
    · obtain ⟨c, hc, hsent⟩ := sendPacket_sent hfree hconn hfit (take 0)
      exact ⟨c, hc, 0, hsent⟩
    · obtain ⟨c, hc, hst, hbuffered⟩ := sendPacket_streams hfree hconn (by omega) hbig (take 0)
      refine ⟨c, hc, hst.sends (by omega) hsize ?_ (Nat.lt_succ_self _) _⟩
      rw [hbuffered]
      exact Progress.start (take 0)

end Response

/-! ## A queue that is blocked -/

/-- What a step reads as the space of the write buffer. -/
def Action.space : Action → ℕ
  | .sendPacket _ space => space
  | .sendBuffer _ _ _ space => space
  | .sendChunk space => space
  | .sendPing space => space
  | .processQueue space => space
  | .handleGetActivityID _ _ _ space => space
  | _ => 0

section Blocked

variable {W space : ℕ} {s t : ClientSocketOut} {p q : Packet} {ps : List Packet}

theorem _OutPacket_queue (s : ClientSocketOut) (space : ℕ) (q : Packet) :
    (s._OutPacket space q).2.m_packetQueue = s.m_packetQueue := by
  rcases s._OutPacket_cases space q with ⟨-, hout⟩ | ⟨-, -, hout⟩ | ⟨-, -, hout⟩
  · rw [hout]
  · rw [hout]
  · rw [hout]

theorem SendRawData_queue (s : ClientSocketOut) (space : ℕ) (dataChunk : List UInt8) :
    (s.SendRawData space dataChunk).2.m_packetQueue = s.m_packetQueue := by
  rcases s.SendRawData_cases space dataChunk with ⟨-, hout⟩ | ⟨-, -, hout⟩ | ⟨-, -, hout⟩
  · rw [hout]
  · rw [hout]
  · rw [hout]

theorem OutPacket_queue (s : ClientSocketOut) (space : ℕ) (q : Packet) :
    (s.OutPacket space q).m_packetQueue = s.m_packetQueue := by
  rw [OutPacket, ← s._OutPacket_queue space q]
  obtain ⟨result, t⟩ := s._OutPacket space q
  cases result with
  | SUCCESS => rfl
  | NO_ROOM_IN_BUFFER => rfl
  | NOT_CONNECTED => rfl
  | SOCKET_ERROR => rfl

theorem chunkTurn_queue (s : ClientSocketOut) (q : Packet) (chunkSize rpos sendCounter space : ℕ) :
    (s.chunkTurn q chunkSize rpos sendCounter space).m_packetQueue = s.m_packetQueue := by
  rw [chunkTurn, ← s.SendRawData_queue space
    (slice q.payload rpos (min (q.payload.length - rpos) chunkSize))]
  obtain ⟨result, t⟩ := s.SendRawData space
    (slice q.payload rpos (min (q.payload.length - rpos) chunkSize))
  cases result with
  | SUCCESS =>
    dsimp only
    split <;> rfl
  | NO_ROOM_IN_BUFFER =>
    dsimp only
    split <;> rfl
  | NOT_CONNECTED => rfl
  | SOCKET_ERROR => rfl

/-- What a step does to the queue: it puts packets behind it or none, or it is a turn of
`ProcessQueue`. -/
theorem step_queue {a : Action} (hs : s.step a = some t) :
    (∃ added, t.m_packetQueue = s.m_packetQueue ++ added)
      ∨ ∃ space, a = .processQueue space ∧ t = s.queueTurn space := by
  have hsame : t.m_packetQueue = s.m_packetQueue →
      ∃ added, t.m_packetQueue = s.m_packetQueue ++ added :=
    fun heq => ⟨[], by rw [heq, List.append_nil]⟩
  cases a with
  | sendPacket q space =>
    rw [step] at hs
    split at hs
    · cases hs
      exact Or.inl (hsame (s.OutPacket_queue space q))
    · cases hs
  | sendBuffer q limit limit' space =>
    rw [step] at hs
    split at hs
    · split at hs
      · have hqueue := s.SendRawData_queue space q.header.toBytes
        split at hs
        · next u hout =>
          rw [hout] at hqueue
          cases hs
          exact Or.inl (hsame hqueue)
        · next u _ hout =>
          rw [hout] at hqueue
          cases hs
          exact Or.inl (hsame hqueue)
      · cases hs
        exact Or.inl (hsame (s.OutPacket_queue space q))
    · cases hs
  | queuePacket =>
    rw [step] at hs
    split at hs
    · next q _ =>
      cases hs
      exact Or.inl ⟨[q], rfl⟩
    · cases hs
  | sendChunk space =>
    rw [step] at hs
    split at hs
    · cases hs
      exact Or.inl (hsame (s.chunkTurn_queue _ _ _ _ space))
    · cases hs
  | update tickCount =>
    rw [step] at hs
    split at hs
    · cases hs
      exact Or.inl (hsame rfl)
    · cases hs
  | sendPing space =>
    rw [step] at hs
    split at hs
    · next tickCount _ =>
      have hqueue := s._OutPacket_queue space (pingPacket tickCount)
      split at hs
      · next u hout =>
        rw [hout] at hqueue
        cases hs
        exact Or.inl (hsame hqueue)
      · next u _ hout =>
        rw [hout] at hqueue
        cases hs
        exact Or.inl (hsame hqueue)
    · cases hs
  | processQueue space =>
    rw [step] at hs
    split at hs
    · cases hs
      exact Or.inr ⟨space, rfl, rfl⟩
    · cases hs
  | handleGetActivityID token flags id space =>
    rw [step] at hs
    split at hs
    · have hqueue := s._OutPacket_queue space (activityResponse token flags id)
      split at hs
      · next u hout =>
        rw [hout] at hqueue
        cases hs
        exact Or.inl (hsame hqueue)
      · next u _ hout =>
        rw [hout] at hqueue
        cases hs
        exact Or.inl (hsame hqueue)
    · cases hs
  | queueActivityID =>
    rw [step] at hs
    split at hs
    · next q _ =>
      split at hs
      · cases hs
      · cases hs
        exact Or.inl ⟨[q], rfl⟩
    · cases hs
  | disconnect =>
    cases hs
    exact Or.inl (hsame rfl)

/-- `ProcessQueue` leaves a queue whose first packet does not fit. -/
theorem queueTurn_blocked (hbig : W < p.payload.length + sizeofPackerHeader)
    (hq : s.m_packetQueue = p :: ps) (hconn : s.connected = true) (hspace : space ≤ W) :
    s.queueTurn space = { s with holder := .free } := by
  rw [queueTurn, hq]
  dsimp only
  rcases s._OutPacket_cases space p with ⟨hc, -⟩ | ⟨-, -, hout⟩ | ⟨-, hroom, -⟩
  · rw [hconn] at hc
    cases hc
  · simp only [hout, hq]
  · exact absurd (Nat.lt_of_le_of_lt hspace hbig) hroom

/-- A step on a connected socket leaves the packets that wait, and more may wait behind
them. -/
theorem step_blocked (hbig : W < p.payload.length + sizeofPackerHeader)
    (hq : s.m_packetQueue = p :: ps) {a : Action} (hspace : a.space ≤ W)
    (hconn : t.connected = true) (hs : s.step a = some t) :
    ∃ qs, t.m_packetQueue = p :: qs := by
  rcases step_queue hs with ⟨added, hqueue⟩ | ⟨space, rfl, rfl⟩
  · exact ⟨ps ++ added, by rw [hqueue, hq, List.cons_append]⟩
  · -- the turn leaves the connection
    have hconn' : s.connected = true := by
      cases hc : s.connected with
      | true => rfl
      | false =>
        rw [queueTurn, hq] at hconn
        simp only [_OutPacket, hc, if_pos] at hconn
        cases hconn
    have hle : space ≤ W := hspace
    rw [queueTurn_blocked hbig hq hconn' hle]
    exact ⟨ps, hq⟩

/-- The run of a blocked queue: whatever is sent and however often `ProcessQueue` runs, the
first packet stays as long as the socket is connected. -/
theorem queue_blocked (hbig : W < p.payload.length + sizeofPackerHeader)
    (hq : s.m_packetQueue = p :: ps)
    (h : sender.Steps (fun _ a t => a.space ≤ W ∧ t.connected = true) s t) :
    ∃ qs, t.m_packetQueue = p :: qs := by
  refine h.invariant (fun t => ∃ qs, t.m_packetQueue = p :: qs) ?_ ⟨ps, hq⟩
  rintro u a v ⟨qs, hu⟩ ⟨hspace, hconn⟩ hs
  exact step_blocked hbig hu hspace hconn hs

/-- The two steps that queue a response. -/
theorem steps_queued (hfree : s.holder = .free) (hconn : s.connected = true)
    (hsmall : ¬ W < p.payload.length) (hbig : W < p.payload.length + sizeofPackerHeader) :
    sender.Steps (fun _ a _ => a.space ≤ W) s
      { s with m_packetQueue := s.m_packetQueue ++ [p], holder := .free } := by
  have hfirst : sender.step s (.sendBuffer p W W W) = some { s with holder := .queueing p } :=
    step_queued hfree hconn hsmall hbig
  exact .head s _ _ (.sendBuffer p W W W) (Nat.le_refl W) hfirst
    (.single (a := .queuePacket) (Nat.zero_le W) rfl)

end Blocked

/-! ## Sizes at the limits -/

/-- A response of `n` bytes. -/
def response (n : ℕ) : Packet := ⟨4, List.replicate n 7⟩

theorem length_response (n : ℕ) : (response n).payload.length = n := List.length_replicate

/-- A buffer of 1024 bytes: 1018 bytes fit, and 103936 bytes are streamed. -/
theorem response_sent_sample :
    Sends 1024 new (response 1018) ∧ Sends 1024 new (response 103936) := by
  constructor
  · refine (response_sent_iff rfl rfl (by decide)).mpr (Or.inl ?_)
    rw [length_response]
    decide
  · refine (response_sent_iff rfl rfl (by decide)).mpr (Or.inr ?_)
    rw [length_response]
    decide

/-- 1024 bytes: the response is queued, and stays the first of the queue while the socket
is connected. -/
theorem response_not_sent : ¬ Sends 1024 new (response 1024)
    ∧ ∃ t, sender.Steps (fun _ a _ => a.space ≤ 1024) new t ∧ t.m_packetQueue = [response 1024]
      ∧ ∀ u, sender.Steps (fun _ a u => a.space ≤ 1024 ∧ u.connected = true) t u →
        ∃ qs, u.m_packetQueue = response 1024 :: qs := by
  have hsmall : ¬ 1024 < (response 1024).payload.length := by
    rw [length_response]
    decide
  have hbig : 1024 < (response 1024).payload.length + sizeofPackerHeader := by
    rw [length_response]
    decide
  exact ⟨not_sends_queued rfl rfl hsmall hbig, _, steps_queued rfl rfl hsmall hbig, rfl,
    fun u hu => queue_blocked hbig rfl hu⟩

end ClientSocketOut

end TransDB
