/-
Packets on the wire.

A packet is a header (`PackerHeader`: size of the payload and opcode, packed and
little-endian) and the payload. Client and server put them on the stream one behind
another with nothing between.
-/
import TransDB.ByteList

set_option autoImplicit false

namespace TransDB

open ByteList

/-- An opcode and a payload. -/
structure Packet where
  opcode : UInt16
  payload : List UInt8
  deriving DecidableEq, Repr

/-- `PackerHeader` -/
structure PackerHeader where
  m_size : ℕ
  m_opcode : UInt16
  deriving DecidableEq, Repr

/-- `sizeof(PackerHeader)`, packed. -/
def sizeofPackerHeader : ℕ := 6

/-- The packed bytes of a header; the size is a `uint32`. -/
def PackerHeader.toBytes (h : PackerHeader) : List UInt8 :=
  toLE 4 h.m_size ++ toLE 2 h.m_opcode.toNat

/-- A header read from its packed bytes. -/
def PackerHeader.ofBytes (bytes : List UInt8) : PackerHeader where
  m_size := ofLE (bytes.take 4)
  m_opcode := UInt16.ofNat (ofLE (bytes.drop 4))

@[simp] theorem PackerHeader.length_toBytes (h : PackerHeader) :
    h.toBytes.length = sizeofPackerHeader := by
  rw [toBytes, List.length_append, length_toLE, length_toLE]
  rfl

/-- The size field keeps 32 bits of the size. -/
theorem PackerHeader.ofBytes_toBytes_mod (h : PackerHeader) :
    ofBytes h.toBytes = ⟨h.m_size % 2 ^ 32, h.m_opcode⟩ := by
  have htake : h.toBytes.take 4 = toLE 4 h.m_size := List.take_left' (length_toLE _ _)
  have hdrop : h.toBytes.drop 4 = toLE 2 h.m_opcode.toNat := List.drop_left' (length_toLE _ _)
  have hop : UInt16.ofNat (ofLE (toLE 2 h.m_opcode.toNat)) = h.m_opcode := by
    rw [ofLE_toLE_of_lt h.m_opcode.toNat_lt, UInt16.ofNat_toNat]
  rw [ofBytes, htake, hdrop, hop, ofLE_toLE]

theorem PackerHeader.ofBytes_toBytes {h : PackerHeader} (hsize : h.m_size < 2 ^ 32) :
    ofBytes h.toBytes = h := by
  rw [ofBytes_toBytes_mod, Nat.mod_eq_of_lt hsize]

namespace Packet

/-- The size field has room for the length of the payload. -/
def Sized (p : Packet) : Prop := p.payload.length < 2 ^ 32

/-- The header of a packet. -/
def header (p : Packet) : PackerHeader := ⟨p.payload.length, p.opcode⟩

/-- A packet on the wire. -/
def encode (p : Packet) : List UInt8 := p.header.toBytes ++ p.payload

/-- Packets on the wire. -/
def encodeAll (ps : List Packet) : List UInt8 := ps.flatMap encode

theorem length_encode (p : Packet) :
    p.encode.length = sizeofPackerHeader + p.payload.length := by
  rw [encode, List.length_append, PackerHeader.length_toBytes]

theorem encodeAll_cons (p : Packet) (ps : List Packet) :
    encodeAll (p :: ps) = p.encode ++ encodeAll ps := List.flatMap_cons

theorem encodeAll_singleton (p : Packet) : encodeAll [p] = p.encode := List.flatMap_singleton _ _

theorem encodeAll_append (ps qs : List Packet) :
    encodeAll (ps ++ qs) = encodeAll ps ++ encodeAll qs := List.flatMap_append

/-- The packets whose last byte is among the first `n` bytes. -/
def complete : List Packet → ℕ → List Packet
  | [], _ => []
  | p :: ps, n => if p.encode.length ≤ n then p :: complete ps (n - p.encode.length) else []

/-- What lies behind whole packets is counted from there. -/
theorem complete_append (ps qs : List Packet) (n : ℕ) :
    complete (ps ++ qs) ((encodeAll ps).length + n) = ps ++ complete qs n := by
  induction ps with
  | nil =>
    rw [List.nil_append, List.nil_append]
    exact congrArg _ (Nat.zero_add n)
  | cons p ps ih =>
    have hsub : p.encode.length + (encodeAll ps).length + n - p.encode.length
        = (encodeAll ps).length + n := by omega
    rw [List.cons_append, complete, encodeAll_cons, List.length_append, hsub, ih,
      if_pos (by omega), List.cons_append]

/-- No packet is whole in fewer bytes than a header has. -/
theorem complete_short (ps : List Packet) {n : ℕ} (h : n < sizeofPackerHeader) :
    complete ps n = [] := by
  cases ps with
  | nil => rfl
  | cons p ps =>
    rw [complete, if_neg]
    rw [length_encode]
    omega

theorem complete_cons_eq_nil {p : Packet} {ps : List Packet} {n : ℕ} :
    complete (p :: ps) n = [] ↔ n < sizeofPackerHeader + p.payload.length := by
  rw [complete, length_encode]
  by_cases hle : sizeofPackerHeader + p.payload.length ≤ n
  · rw [if_pos hle]
    exact iff_of_false (List.cons_ne_nil _ _) (Nat.not_lt.mpr hle)
  · rw [if_neg hle]
    exact iff_of_true rfl (Nat.not_le.mp hle)

end Packet

end TransDB
