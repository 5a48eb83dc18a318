/-
Byte buffers as lists, and the three ways C code touches one: read a slice,
overwrite a slice, and read or write a little-endian integer.

Everything here is about lists, nothing about the program. A slice is
addressed by position and length; the lemmas that matter are the ones that
split the buffer at the position (`slice_append`, `patch_append`), because a
buffer described as a concatenation of fields is then read and written field
by field. The checked versions (`load`, `memcpy`, `memmove`) return
`none` for an access outside the buffer, which is what a C program must not do.
-/
import Mathlib.Data.List.Basic
import Mathlib.Tactic.Ring
import Mathlib.Tactic.NormNum

set_option autoImplicit false

namespace ByteList

variable {α : Type}

/-! ## Slices -/

/-- `n` elements from position `pos`. -/
def slice (l : List α) (pos n : ℕ) : List α := (l.drop pos).take n

/-- `l` with the elements from `pos` on replaced by `src`. -/
def patch (l : List α) (pos : ℕ) (src : List α) : List α :=
  l.take pos ++ src ++ l.drop (pos + src.length)

theorem length_slice (l : List α) (pos n : ℕ) (h : pos + n ≤ l.length) :
    (slice l pos n).length = n := by
  simp only [slice, List.length_take, List.length_drop]
  omega

theorem length_patch (l : List α) (pos : ℕ) (src : List α)
    (h : pos + src.length ≤ l.length) : (patch l pos src).length = l.length := by
  simp only [patch, List.length_append, List.length_take, List.length_drop]
  omega

/-- Reading the middle field of a concatenation. -/
theorem slice_append (a x c : List α) (pos n : ℕ) (hp : pos = a.length) (hn : n = x.length) :
    slice (a ++ x ++ c) pos n = x := by
  subst hp hn
  rw [slice, List.append_assoc, List.drop_left, List.take_left]

/-- Two slices, one after the other. -/
theorem slice_add (l : List α) (pos n m : ℕ) :
    slice l pos (n + m) = slice l pos n ++ slice l (pos + n) m := by
  rw [slice, slice, slice, List.take_add, List.drop_drop]

theorem slice_drop (l : List α) (pos₀ pos n : ℕ) :
    slice (l.drop pos₀) pos n = slice l (pos₀ + pos) n := by
  rw [slice, slice, List.drop_drop]

/-- Overwriting the middle field of a concatenation. -/
theorem patch_append (a x c y : List α) (pos : ℕ) (hp : pos = a.length)
    (hy : y.length = x.length) : patch (a ++ x ++ c) pos y = a ++ y ++ c := by
  subst hp
  have htake : (a ++ x ++ c).take a.length = a := by
    rw [List.append_assoc, List.take_left]
  have hdrop : (a ++ x ++ c).drop (a.length + y.length) = c := by
    rw [hy, ← List.length_append, List.drop_left]
  rw [patch, htake, hdrop]

/-! ## Checked accesses -/

/-- Read `n` elements at `pos`; `none` when the slice leaves the buffer. -/
def load (l : List α) (pos n : ℕ) : Option (List α) :=
  if pos + n ≤ l.length then some (slice l pos n) else none

/-- `memcpy` into the buffer. -/
def memcpy (l : List α) (pos : ℕ) (src : List α) : Option (List α) :=
  if pos + src.length ≤ l.length then some (patch l pos src) else none

/-- `memmove` inside the buffer: the source is read before the write. -/
def memmove (l : List α) (dst src n : ℕ) : Option (List α) := do
  let bytes ← load l src n
  memcpy l dst bytes

/-- A load that succeeds reads a slice. -/
theorem slice_of_load {l bytes : List α} {pos n : ℕ} (h : load l pos n = some bytes) :
    slice l pos n = bytes := by
  rw [load] at h
  split at h
  · exact Option.some.inj h
  · cases h

theorem load_append (a x c : List α) (pos n : ℕ) (hp : pos = a.length) (hn : n = x.length) :
    load (a ++ x ++ c) pos n = some x := by
  rw [load, if_pos (by simp only [List.length_append]; omega), slice_append a x c pos n hp hn]

theorem memcpy_append (a x c y : List α) (pos : ℕ) (hp : pos = a.length)
    (hy : y.length = x.length) : memcpy (a ++ x ++ c) pos y = some (a ++ y ++ c) := by
  rw [memcpy, if_pos (by simp only [List.length_append]; omega), patch_append a x c y pos hp hy]

theorem memcpy_length {l l' src : List α} {pos : ℕ} (h : memcpy l pos src = some l') :
    l'.length = l.length := by
  rw [memcpy] at h
  split at h
  · next hle =>
    rw [← Option.some.inj h, length_patch l pos src hle]
  · cases h

theorem memmove_length {l l' : List α} {dst src n : ℕ} (h : memmove l dst src n = some l') :
    l'.length = l.length := by
  rw [memmove] at h
  obtain ⟨bytes, -, hc⟩ := Option.bind_eq_some_iff.mp h
  exact memcpy_length hc

/-- Closing a gap: the field `y` is moved down over `x`, and what it leaves
behind at its end keeps its old contents. -/
theorem memmove_down (a x y c : List α) (dst src n : ℕ) (hd : dst = a.length)
    (hs : src = a.length + x.length) (hn : n = y.length) :
    memmove (a ++ x ++ y ++ c) dst src n
      = some (a ++ y ++ (x ++ y).drop y.length ++ c) := by
  have hload : load (a ++ x ++ y ++ c) src n = some y := by
    refine load_append (a ++ x) y c src n ?_ hn
    rw [hs, List.length_append]
  have hsplit : a ++ x ++ y ++ c
      = a ++ (x ++ y).take y.length ++ ((x ++ y).drop y.length ++ c) := by
    conv_lhs => rw [List.append_assoc a x y, ← List.take_append_drop y.length (x ++ y)]
    simp only [List.append_assoc]
  have hcopy : memcpy (a ++ x ++ y ++ c) dst y
      = some (a ++ y ++ ((x ++ y).drop y.length ++ c)) := by
    rw [hsplit]
    refine memcpy_append a _ _ y dst hd ?_
    rw [List.length_take, List.length_append]
    omega
  rw [memmove, hload, Option.bind_eq_bind, Option.bind_some, hcopy]
  simp only [List.append_assoc]

/-- Opening a gap: the field `x` is moved up over `y`; the first bytes of the
two fields keep their old contents. -/
theorem memmove_up (a x y c : List α) (dst src n : ℕ) (hs : src = a.length)
    (hd : dst = a.length + y.length) (hn : n = x.length) :
    memmove (a ++ x ++ y ++ c) dst src n
      = some (a ++ (x ++ y).take y.length ++ x ++ c) := by
  have hload : load (a ++ x ++ y ++ c) src n = some x := by
    rw [List.append_assoc (a ++ x)]
    exact load_append a x (y ++ c) src n hs hn
  have hsplit : a ++ x ++ y ++ c
      = (a ++ (x ++ y).take y.length) ++ (x ++ y).drop y.length ++ c := by
    conv_lhs => rw [List.append_assoc a x y, ← List.take_append_drop y.length (x ++ y)]
    simp only [List.append_assoc]
  have hlen : ((x ++ y).take y.length).length = y.length := by
    rw [List.length_take, List.length_append]
    omega
  have hcopy : memcpy (a ++ x ++ y ++ c) dst x
      = some ((a ++ (x ++ y).take y.length) ++ x ++ c) := by
    rw [hsplit]
    refine memcpy_append (a ++ (x ++ y).take y.length) _ c x dst ?_ ?_
    · rw [hd, List.length_append, hlen]
    · rw [List.length_drop, List.length_append]
      omega
  rw [memmove, hload, Option.bind_eq_bind, Option.bind_some, hcopy]

/-! ## Little-endian integers -/

/-- The `w` low bytes of `n`, least significant first. Storing an integer in a
field of `w` bytes drops what does not fit. -/
def toLE (w n : ℕ) : List UInt8 :=
  match w with
  | 0 => []
  | w + 1 => UInt8.ofNat n :: toLE w (n / 256)

/-- The integer the bytes spell, least significant first. -/
def ofLE (l : List UInt8) : ℕ := l.foldr (fun b n => 256 * n + b.toNat) 0

@[simp] theorem length_toLE (w n : ℕ) : (toLE w n).length = w := by
  induction w generalizing n with
  | zero => rfl
  | succ w ih => simp only [toLE, List.length_cons, ih]

/-- Reading back what a field of `w` bytes stored. -/
theorem ofLE_toLE (w n : ℕ) : ofLE (toLE w n) = n % 2 ^ (8 * w) := by
  induction w generalizing n with
  | zero => simp only [toLE, ofLE, List.foldr_nil, Nat.mul_zero, pow_zero, Nat.mod_one]
  | succ w ih =>
    have hstep : ofLE (toLE (w + 1) n) = 256 * ofLE (toLE w (n / 256)) + n % 256 := by
      simp only [ofLE, toLE, List.foldr_cons, UInt8.toNat_ofNat']
    have hpow : 2 ^ (8 * (w + 1)) = 256 * 2 ^ (8 * w) := by
      rw [Nat.mul_add, pow_add]
      ring
    rw [hstep, ih, hpow, Nat.mod_mul]
    ring

theorem ofLE_toLE_of_lt {w n : ℕ} (h : n < 2 ^ (8 * w)) : ofLE (toLE w n) = n := by
  rw [ofLE_toLE, Nat.mod_eq_of_lt h]

/-- Storing again what was read leaves the bytes as they are. -/
theorem toLE_ofLE (l : List UInt8) : toLE l.length (ofLE l) = l := by
  induction l with
  | nil => rfl
  | cons b l ih =>
    have hstep : ofLE (b :: l) = 256 * ofLE l + b.toNat := rfl
    have hb := b.toNat_lt
    have hdiv : (256 * ofLE l + b.toNat) / 256 = ofLE l := by omega
    have hbyte : UInt8.ofNat (256 * ofLE l + b.toNat) = b := by
      apply UInt8.toNat_inj.mp
      rw [UInt8.toNat_ofNat']
      omega
    rw [List.length_cons, toLE, hstep, hdiv, hbyte, ih]

theorem ofLE_lt (l : List UInt8) : ofLE l < 2 ^ (8 * l.length) := by
  have hmod := ofLE_toLE l.length (ofLE l)
  rw [toLE_ofLE] at hmod
  have hlt : ofLE l % 2 ^ (8 * l.length) < 2 ^ (8 * l.length) := Nat.mod_lt _ (Nat.two_pow_pos _)
  omega

/-- A key read from eight bytes and stored again. -/
theorem toLE_ofLE_key {l : List UInt8} (h : l.length = 8) :
    toLE 8 (UInt64.ofNat (ofLE l)).toNat = l := by
  have hlt := ofLE_lt l
  rw [h] at hlt
  have hsame := toLE_ofLE l
  rw [h] at hsame
  rw [UInt64.toNat_ofNat_of_lt' hlt, hsame]

/-- A field of `w` bytes determines the integer it was stored from. -/
theorem toLE_inj {w n m : ℕ} (hn : n < 2 ^ (8 * w)) (hm : m < 2 ^ (8 * w))
    (h : toLE w n = toLE w m) : n = m := by
  rw [← ofLE_toLE_of_lt hn, ← ofLE_toLE_of_lt hm, h]

end ByteList
