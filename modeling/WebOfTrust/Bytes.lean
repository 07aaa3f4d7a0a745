/-!
# Bytes

Byte strings, little-endian words, byte strings of a fixed length and hexadecimal text.

* `LittleEndian.encode`, `LittleEndian.decode`: the two directions between a natural number and a
  given number of bytes; every byte string is the encoding of its number (`encode_decode`);
* `Octets n`: the byte strings of length `n`; `Octets.slice` takes one out of a longer one;
* `Bytes.hex`: two lower-case hexadecimal digits for each byte.
-/

namespace WebOfTrust

/-- A byte string. -/
abbrev Bytes : Type := List UInt8

/-! ## Little-endian words -/

namespace LittleEndian

/-- The lowest bytes of a number, least significant first. -/
def encode : (width : Nat) → (n : Nat) → Bytes
  | 0, _ => []
  | width + 1, n => UInt8.ofNat n :: encode width (n / 256)

/-- The number whose bytes, least significant first, are given. -/
def decode : Bytes → Nat
  | [] => 0
  | b :: rest => b.toNat + 256 * decode rest

@[simp] theorem length_encode (width n : Nat) : (encode width n).length = width := by
  induction width generalizing n with
  | zero => rfl
  | succ width ih => simp [encode, ih]

theorem encode_decode (bytes : Bytes) : encode bytes.length (decode bytes) = bytes := by
  induction bytes with
  | nil => rfl
  | cons b rest ih =>
    have hb := b.toNat_lt
    have hdiv : (b.toNat + 256 * decode rest) / 256 = decode rest := by omega
    rw [List.length_cons, decode, encode, hdiv, ih]
    congr 1
    apply UInt8.toNat_inj.mp
    rw [UInt8.toNat_ofNat']
    omega

/-- The number that some bytes at some place write. -/
def read (bytes : Bytes) (start width : Nat) : Nat := decode ((bytes.drop start).take width)

end LittleEndian

/-! ## Byte strings of a fixed length -/

/-- The byte strings of length `n`. -/
abbrev Octets (n : Nat) : Type := { bytes : Bytes // bytes.length = n }

namespace Octets

/-- A byte string as one of length `n`, when that is its length. -/
def ofBytes? (n : Nat) (bytes : Bytes) : Option (Octets n) :=
  if h : bytes.length = n then some ⟨bytes, h⟩ else none

/-- The byte string of length `n` that stands at some place of a longer one. -/
def slice (bytes : Bytes) (start n : Nat) (h : start + n ≤ bytes.length) : Octets n :=
  ⟨(bytes.drop start).take n, by rw [List.length_take, List.length_drop]; omega⟩

/-- The number that the bytes write, least significant first. -/
def toNat {n : Nat} (octets : Octets n) : Nat := LittleEndian.decode octets.val

theorem toNat_inj {n : Nat} {a b : Octets n} (h : a.toNat = b.toNat) : a = b := by
  obtain ⟨a, rfl⟩ := a
  obtain ⟨b, hb⟩ := b
  have h' : LittleEndian.decode a = LittleEndian.decode b := h
  have := LittleEndian.encode_decode a
  rw [h', ← hb, LittleEndian.encode_decode] at this
  exact Subtype.ext this.symm

end Octets

/-! ## Hexadecimal text -/

namespace Bytes

/-- The hexadecimal digits of a byte. -/
def hexDigits (b : UInt8) : List Char :=
  [Nat.digitChar (b.toNat / 16), Nat.digitChar (b.toNat % 16)]

/-- The hexadecimal text of a byte string. -/
def hex (bytes : Bytes) : String := String.ofList (bytes.flatMap hexDigits)

end Bytes

end WebOfTrust
