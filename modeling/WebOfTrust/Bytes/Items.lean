import Mathlib
import WebOfTrust.Bytes

/-!
# Items of one width

Items that take the same number of bytes each are written one after the other, and read back as
many as there are said to be.

* `ItemFormat`: how an item is written and read; `ItemFormat.readAll`: some items in a row;
* `ItemFormat.length_flatMap`: how many bytes they take;
* **`ItemFormat.readAll_flatMap`**, **`ItemFormat.flatMap_readAll`**: the two directions.
-/

namespace WebOfTrust

/-- A format of items in a fixed number of bytes: an item is read from its bytes, whatever follows
them, and is written in the bytes that it is read from. -/
structure ItemFormat (β : Type) where
  width : ℕ
  encode : β → Bytes
  decode : Bytes → β
  length_encode : ∀ x, (encode x).length = width
  decode_encode : ∀ x rest, decode (encode x ++ rest) = x
  encode_decode : ∀ bytes, width ≤ bytes.length → encode (decode bytes) = bytes.take width

namespace ItemFormat

variable {β : Type} (f : ItemFormat β)

/-- Some items at the front of some bytes. -/
def readAll : ℕ → Bytes → List β
  | 0, _ => []
  | n + 1, bytes => f.decode bytes :: readAll n (bytes.drop f.width)

@[simp] theorem length_readAll (n : ℕ) (bytes : Bytes) : (f.readAll n bytes).length = n := by
  induction n generalizing bytes with
  | zero => rfl
  | succ n ih => rw [readAll, List.length_cons, ih]

theorem length_flatMap (items : List β) :
    (items.flatMap f.encode).length = items.length * f.width := by
  simp [List.length_flatMap, f.length_encode]

theorem readAll_flatMap (items : List β) :
    f.readAll items.length (items.flatMap f.encode) = items := by
  induction items with
  | nil => rfl
  | cons x rest ih =>
    rw [List.length_cons, List.flatMap_cons, readAll, f.decode_encode,
      List.drop_left' (f.length_encode x), ih]

theorem flatMap_readAll {n : ℕ} {bytes : Bytes} (h : bytes.length = n * f.width) :
    (f.readAll n bytes).flatMap f.encode = bytes := by
  induction n generalizing bytes with
  | zero =>
    rw [Nat.zero_mul] at h
    rw [List.length_eq_zero_iff.mp h, readAll, List.flatMap_nil]
  | succ n ih =>
    rw [Nat.succ_mul] at h
    rw [readAll, List.flatMap_cons, f.encode_decode bytes (by omega),
      ih (by rw [List.length_drop]; omega), List.take_append_drop]

end ItemFormat

end WebOfTrust
