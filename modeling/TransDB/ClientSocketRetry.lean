/-
The two loops that send again under the lock of `ClientSocketHolder`.

`SendPing` counts its failed attempts in `count`, but never increments it, so the
test of `count` never ends the loop: it ends with a success only. The loop of
`SendPacket` counts in `sendCounter`, and ends with any failure but a full buffer.
Both are given as what one attempt with a given result leads to; the machine of the
senders makes the same turns.
-/
import TransDB.Attempts
import TransDB.ClientSocketSend

set_option autoImplicit false

namespace TransDB

namespace ClientSocketOut

open Attempts ByteList

/-! ## The turns -/

/-- The loop of `ClientSocket::SendPing`; its variable is `count`. -/
def SendPing.turn (count : UInt32) : OUTPACKET_RESULT → Option UInt32
  | .SUCCESS => none
  | _ => if 100 < count then none else some count

/-- The variables of the loop of `ClientSocketHolder::SendPacket`. -/
structure ChunkLoop where
  rpos : ℕ
  sendCounter : ℕ
  deriving DecidableEq, Repr

/-- The loop of `ClientSocketHolder::SendPacket` over the chunks of `size` bytes. -/
def SendPacket.turn (size chunkSize : ℕ) (v : ChunkLoop) : OUTPACKET_RESULT → Option ChunkLoop
  | .SUCCESS =>
    --send is ok continue with sending
    let rpos := v.rpos + min (size - v.rpos) chunkSize
    if rpos < size then some { v with rpos := rpos } else none
  | .NO_ROOM_IN_BUFFER =>
    if 100 < v.sendCounter then none
    --socket buffer is full wait
    else some { v with sendCounter := v.sendCounter + 1 }
  --error interupt sending
  | _ => none

/-- The machine makes the turns of `SendPing`. -/
theorem sendPing_turn {s t : ClientSocketOut} {tickCount : UInt64} {space : ℕ}
    (h : s.holder = .pinging tickCount) (hs : s.step (.sendPing space) = some t) :
    t.holder = ((SendPing.turn 0 (s._OutPacket space (pingPacket tickCount)).1).map
      fun _ => .pinging tickCount).getD .processing := by
  rw [step, h] at hs
  dsimp only at hs
  rcases s._OutPacket_cases space (pingPacket tickCount) with
    ⟨-, hout⟩ | ⟨-, -, hout⟩ | ⟨-, -, hout⟩
  · rw [hout] at hs ⊢
    cases hs
    exact h
  · rw [hout] at hs ⊢
    cases hs
    exact h
  · rw [hout] at hs ⊢
    cases hs
    rfl

/-- The machine makes the turns of the loop over the chunks. -/
theorem chunkTurn_turn (s : ClientSocketOut) (p : Packet) (chunkSize rpos sendCounter space : ℕ) :
    (s.chunkTurn p chunkSize rpos sendCounter space).holder
      = ((SendPacket.turn p.payload.length chunkSize ⟨rpos, sendCounter⟩ (s.SendRawData space
          (slice p.payload rpos (min (p.payload.length - rpos) chunkSize))).1).map
            fun v => .streaming p chunkSize v.rpos v.sendCounter).getD .free := by
  rw [chunkTurn]
  rcases s.SendRawData_cases space
      (slice p.payload rpos (min (p.payload.length - rpos) chunkSize)) with
    ⟨-, hout⟩ | ⟨-, -, hout⟩ | ⟨-, -, hout⟩
  · rw [hout]
    rfl
  · rw [hout]
    dsimp only [SendPacket.turn]
    split <;> rfl
  · rw [hout]
    dsimp only [SendPacket.turn]
    split <;> rfl

/-! ## Their attempts -/

/-- The number of chunks of `size` bytes. -/
def chunks (size chunkSize : ℕ) : ℕ := (size + chunkSize - 1) / chunkSize

theorem chunks_eq {size chunkSize : ℕ} (hsize : 0 < size) (hchunk : 0 < chunkSize) :
    chunks size chunkSize = (size - 1) / chunkSize + 1 := by
  have hsum : size + chunkSize - 1 = size - 1 + chunkSize := by omega
  rw [chunks, hsum, Nat.add_div_right _ hchunk]

/-- What a turn that goes on has used up: a failure one of the hundred waits, a success
one of the chunks. -/
theorem SendPacket.turn_uses {size chunkSize : ℕ} (hchunk : 0 < chunkSize) (v : ChunkLoop)
    (r : OUTPACKET_RESULT) (w : ChunkLoop) (h : SendPacket.turn size chunkSize v r = some w) :
    (¬ r = .SUCCESS → 101 - w.sendCounter < 101 - v.sendCounter ∧ w.rpos = v.rpos)
      ∧ (r = .SUCCESS → w.sendCounter = v.sendCounter
        ∧ (size - w.rpos - 1) / chunkSize < (size - v.rpos - 1) / chunkSize) := by
  cases r with
  | SUCCESS =>
    refine ⟨fun hne => absurd rfl hne, fun _ => ?_⟩
    dsimp only [SendPacket.turn] at h
    by_cases hmore : v.rpos + min (size - v.rpos) chunkSize < size
    · rw [if_pos hmore, Option.some.injEq] at h
      -- more than a chunk is left
      have hmin : min (size - v.rpos) chunkSize = chunkSize := by omega
      rw [hmin] at h hmore
      rw [← h]
      refine ⟨rfl, ?_⟩
      have hrest : size - v.rpos - 1 = size - (v.rpos + chunkSize) - 1 + chunkSize := by omega
      rw [hrest, Nat.add_div_right _ hchunk]
      exact Nat.lt_succ_self _
    · rw [if_neg hmore] at h
      cases h
  | NO_ROOM_IN_BUFFER =>
    constructor
    · intro _
      dsimp only [SendPacket.turn] at h
      by_cases hfull : 100 < v.sendCounter
      · rw [if_pos hfull] at h
        cases h
      · rw [if_neg hfull, Option.some.injEq] at h
        rw [← h]
        refine ⟨?_, rfl⟩
        show 101 - (v.sendCounter + 1) < 101 - v.sendCounter
        omega
    · rintro ⟨⟩
  | NOT_CONNECTED => cases h
  | SOCKET_ERROR => cases h

/-- The loop over the chunks: 102 failed attempts at most, and one success a chunk. -/
theorem SendPacket.returns {size chunkSize : ℕ} (hsize : 0 < size) (hchunk : 0 < chunkSize)
    (results : ℕ → OUTPACKET_RESULT) :
    ReturnsWithin (SendPacket.turn size chunkSize) results ⟨0, 0⟩ (· = .SUCCESS) 102
      (chunks size chunkSize) := by
  rw [chunks_eq hsize hchunk]
  refine returnsWithin_of_measures (fun v : ChunkLoop => 101 - v.sendCounter)
    (fun v : ChunkLoop => (size - v.rpos - 1) / chunkSize) ?_ ?_
  · intro v r w h hr
    obtain ⟨hlt, hrpos⟩ := (SendPacket.turn_uses hchunk v r w h).1 hr
    refine ⟨hlt, ?_⟩
    rw [hrpos]
  · intro v r w h hr
    obtain ⟨hcounter, hlt⟩ := (SendPacket.turn_uses hchunk v r w h).2 hr
    refine ⟨?_, hlt⟩
    rw [hcounter]

/-- Chunks of no bytes: with successes only the loop never ends. -/
theorem SendPacket.not_returns {size failed successful : ℕ} (hsize : 0 < size) :
    ¬ ReturnsWithin (SendPacket.turn size 0) (fun _ => .SUCCESS) ⟨0, 0⟩ (· = .SUCCESS) failed
      successful := by
  rintro ⟨n, hn, -, -⟩
  have hstay : SendPacket.turn size 0 ⟨0, 0⟩ .SUCCESS = some ⟨0, 0⟩ := by
    dsimp only [SendPacket.turn]
    rw [Nat.min_zero, if_pos hsize]
  have hsome := before_eq_some (n := n) fun _ _ => hstay
  rw [hn.returned] at hsome
  cases hsome

/-- **The loops under the lock.** `SendPing` returns within a number of failed attempts
if and only if one of the attempts up to it succeeds; the loop over the chunks is
bounded for every sequence of results if and only if a chunk has bytes. -/
theorem send_loops_return {SocketWriteBufferSize size : ℕ} (h : SocketWriteBufferSize < size)
    (results : ℕ → OUTPACKET_RESULT) (failed : ℕ) :
    (ReturnsWithin SendPing.turn results 0 (· = .SUCCESS) failed 1
        ↔ ∃ n ≤ failed, results n = .SUCCESS)
      ∧ ((∀ results, ReturnsWithin (SendPacket.turn size (SocketWriteBufferSize / 2)) results
            ⟨0, 0⟩ (· = .SUCCESS) 102 (chunks size (SocketWriteBufferSize / 2)))
        ↔ 2 ≤ SocketWriteBufferSize) := by
  constructor
  · refine returnsWithin_iff_of_waits (fun r => ?_) failed
    cases r <;> rfl
  · constructor
    · intro hall
      by_contra hsmall
      have hzero : SocketWriteBufferSize / 2 = 0 := by omega
      rw [hzero] at hall
      exact SendPacket.not_returns (by omega) (hall fun _ => .SUCCESS)
    · intro hsize
      exact SendPacket.returns (by omega) (by omega)

/-- The third attempt to send a ping succeeds, and a stream of 3000 bytes. -/
theorem send_loops_return_sample :
    ReturnsWithin SendPing.turn (fun n => if n = 2 then .SUCCESS else .NO_ROOM_IN_BUFFER) 0
        (· = .SUCCESS) 2 1
      ∧ ∀ results, ReturnsWithin (SendPacket.turn 3000 512) results ⟨0, 0⟩ (· = .SUCCESS) 102 6 := by
  have hstream : 1024 < 3000 := by decide
  obtain ⟨hping, hchunks⟩ := send_loops_return hstream
    (fun n => if n = 2 then .SUCCESS else .NO_ROOM_IN_BUFFER) 2
  exact ⟨hping.mpr ⟨2, Nat.le_refl 2, rfl⟩, hchunks.mpr (by decide)⟩

/-- A peer that has disconnected: `SendPing` does not return. -/
theorem sendPing_spins : ¬ ∃ n, ReturnsAfter SendPing.turn (fun _ => .NOT_CONNECTED) 0 n := by
  rintro ⟨n, hn⟩
  have hsome : before SendPing.turn (fun _ => .NOT_CONNECTED) 0 n = some 0 :=
    before_eq_some fun _ _ => rfl
  rw [hn.returned] at hsome
  cases hsome

end ClientSocketOut

end TransDB
