import Mathlib
import WebOfTrust.Bytes

/-!
# Little-endian words as numbers

A byte string of a given length writes a number below the power of 256 of that length, and every
such number is written by one.

* `LittleEndian.decode_lt`;
* **`LittleEndian.decode_encode`**: a number below the bound is read back;
* `Bytes.take_drop_append`, `Bytes.getElem?_append`: a section, or a byte, between two others is
  found at its place; `Bytes.take_append_drop`, `Bytes.take_one`: sections taken from their places;
* `LittleEndian.read_encode`, `LittleEndian.encode_read`: what is read at a place, and written
  again.
-/

namespace WebOfTrust

theorem Bytes.take_drop_append {a b : Bytes} {start width : ℕ} (ha : a.length = start)
    (hb : b.length = width) (rest : Bytes) :
    ((a ++ (b ++ rest)).drop start).take width = b := by
  rw [List.drop_left' ha, List.take_left' hb]

theorem Bytes.getElem?_append {a : Bytes} {start : ℕ} (ha : a.length = start) (b : UInt8)
    (rest : Bytes) : (a ++ ([b] ++ rest))[start]? = some b := by
  rw [← ha, List.getElem?_append_right le_rfl, Nat.sub_self]
  rfl

theorem Bytes.take_append_drop (bytes : Bytes) (start width : ℕ) :
    (bytes.drop start).take width ++ bytes.drop (start + width) = bytes.drop start := by
  rw [← List.drop_drop, List.take_append_drop]

theorem Bytes.take_one {bytes : Bytes} {start : ℕ} {b : UInt8} (h : bytes[start]? = some b) :
    (bytes.drop start).take 1 = [b] := by
  rw [List.drop_eq_getElem?_toList_append, h]
  rfl

namespace LittleEndian

theorem decode_lt (bytes : Bytes) : decode bytes < 256 ^ bytes.length := by
  induction bytes with
  | nil => simp [decode]
  | cons b rest ih =>
    have := b.toNat_lt
    simp only [decode, List.length_cons, Nat.pow_succ]
    omega

/-- **A number below the bound is read back.** -/
theorem decode_encode {width n : Nat} (h : n < 256 ^ width) : decode (encode width n) = n := by
  induction width generalizing n with
  | zero =>
    simp only [Nat.pow_zero] at h
    simp only [encode, decode]
    omega
  | succ width ih =>
    rw [Nat.pow_succ] at h
    rw [encode, decode, ih (by omega), UInt8.toNat_ofNat']
    omega

theorem read_lt (bytes : Bytes) (start width : ℕ) : read bytes start width < 256 ^ width := by
  refine (decode_lt _).trans_le (Nat.pow_le_pow_right (by omega) ?_)
  exact List.length_take_le _ _

theorem read_encode {a : Bytes} {start width n : ℕ} (ha : a.length = start)
    (hn : n < 256 ^ width) (rest : Bytes) :
    read (a ++ (encode width n ++ rest)) start width = n := by
  rw [read, Bytes.take_drop_append ha (length_encode _ _), decode_encode hn]

theorem read_encode_front {width n : ℕ} (hn : n < 256 ^ width) (rest : Bytes) :
    read (encode width n ++ rest) 0 width = n :=
  read_encode (a := []) rfl hn rest

theorem encode_read {bytes : Bytes} {start width : ℕ} (h : start + width ≤ bytes.length) :
    encode width (read bytes start width) = (bytes.drop start).take width := by
  have hlength : ((bytes.drop start).take width).length = width := by
    rw [List.length_take, List.length_drop]
    omega
  have := encode_decode ((bytes.drop start).take width)
  rwa [hlength] at this

theorem read_two {bytes : Bytes} {start : ℕ} (h : start + 2 ≤ bytes.length) :
    read bytes start 2 = bytes[start].toNat + 256 * bytes[start + 1].toNat := by
  rw [read, List.drop_eq_getElem_cons (by omega), List.drop_eq_getElem_cons (by omega)]
  rfl

end LittleEndian

end WebOfTrust
