import Mathlib
import WebOfTrust.Bytes.Items
import WebOfTrust.Bytes.Lemmas
import WebOfTrust.PathProof.Wire

/-!
# The format of path proofs

A proof has one encoding, and every byte string of the right form is the encoding of one proof. The
writer and the reader are compared section by section: version, sender, receiver, number of hops,
hops.

* `Hop.decode_encode`, `Hop.encode_decode`: the two directions for a hop, `Hop.format`, and for
  lists of hops (`Hop.decodeList_flatMap`, `Hop.flatMap_decodeList`);
* `PathProof.layout`: the bytes of a proof; `decode_layout`, `layout_of_decode`: the two directions;
* `PathProof.decodeChecked`: the reader with a check before every access;
  **`PathProof.decodeChecked_eq`**: no check fails;
* `PathProof.Formed`: the form of the bytes; **`PathProof.encode_decode_bijective`**.
-/

namespace WebOfTrust

/-! ## Hops -/

namespace Hop

@[simp] theorem length_encode (h : Hop) : h.encode.length = length := by
  simp [encode, length]

theorem decode_encode (h : Hop) (rest : Bytes) : decode (h.encode ++ rest) = h := by
  have hs : LittleEndian.read (h.encode ++ rest) 0 4 = h.source.toNat := by
    rw [encode, List.append_assoc, List.append_assoc]
    exact LittleEndian.read_encode_front h.source.toNat_lt _
  have ht : LittleEndian.read (h.encode ++ rest) 4 4 = h.target.toNat := by
    rw [encode, List.append_assoc, List.append_assoc]
    exact LittleEndian.read_encode (LittleEndian.length_encode _ _) h.target.toNat_lt _
  have hn : LittleEndian.read (h.encode ++ rest) 8 8 = h.nonce.toNat := by
    rw [encode, List.append_assoc]
    exact LittleEndian.read_encode (by simp) h.nonce.toNat_lt _
  rw [decode, hs, ht, hn, UInt32.ofNat_toNat, UInt32.ofNat_toNat, UInt64.ofNat_toNat]

theorem encode_decode {bytes : Bytes} (h : length ≤ bytes.length) :
    (decode bytes).encode = bytes.take length := by
  unfold length at h ⊢
  -- What fits into the bytes of a field is not cut when it becomes a number of that size.
  have hs := LittleEndian.read_lt bytes 0 4
  have ht := LittleEndian.read_lt bytes 4 4
  have hn := LittleEndian.read_lt bytes 8 8
  rw [encode, decode]
  dsimp only
  rw [UInt32.toNat_ofNat_of_lt' hs, UInt32.toNat_ofNat_of_lt' ht, UInt64.toNat_ofNat_of_lt' hn,
    LittleEndian.encode_read (by omega), LittleEndian.encode_read (by omega),
    LittleEndian.encode_read (by omega), List.drop_zero, List.append_assoc,
    show 16 = 4 + (4 + 8) from rfl, List.take_add, List.take_add, List.drop_drop]

/-- The format of hops. -/
def format : ItemFormat Hop := ⟨length, encode, decode, length_encode, decode_encode,
  fun _ => encode_decode⟩

theorem decodeList_eq (n : ℕ) (bytes : Bytes) : decodeList n bytes = format.readAll n bytes := by
  induction n generalizing bytes with
  | zero => rfl
  | succ n ih =>
    rw [decodeList, ih]
    rfl

theorem decodeList_flatMap (hops : List Hop) :
    decodeList hops.length (hops.flatMap encode) = hops := by
  rw [decodeList_eq]
  exact format.readAll_flatMap hops

theorem flatMap_decodeList {n : ℕ} {bytes : Bytes} (h : bytes.length = n * length) :
    (decodeList n bytes).flatMap encode = bytes := by
  rw [decodeList_eq]
  exact format.flatMap_readAll h

@[simp] theorem length_decodeList (n : ℕ) (bytes : Bytes) : (decodeList n bytes).length = n := by
  rw [decodeList_eq, format.length_readAll]

end Hop

@[simp] theorem Identity.length_bytes (i : Identity) : i.bytes.length = 32 := i.octets.property

/-! ## Proofs -/

namespace PathProof

variable {α : Type} {maxHops : ℕ} {bytes : Bytes} {p : PathProof}

/-- The bytes of a proof, of which only the number of hops may be too large for its place. -/
def layout (p : PathProof) : Bytes :=
  version :: p.sender.bytes ++ p.receiver.bytes ++ LittleEndian.encode 2 p.hops.length ++
    p.hops.flatMap Hop.encode

theorem encode_eq_ok_iff : (p.encode : Except (Fault α) Bytes) = .ok bytes ↔
    p.hops.length ≤ countLimit ∧ p.layout = bytes := by
  unfold encode layout
  split_ifs with h
  · simp [h]
  · simp [not_lt.mp h]

theorem layout_eq (p : PathProof) : p.layout = [version] ++ (p.sender.bytes ++
    (p.receiver.bytes ++ (LittleEndian.encode 2 p.hops.length ++ p.hops.flatMap Hop.encode))) := by
  simp only [layout, List.cons_append, List.append_assoc, List.nil_append]

theorem length_layout (p : PathProof) :
    p.layout.length = headerLength + p.hops.length * Hop.length := by
  simp [layout_eq, headerLength]
  omega

theorem read_layout (h : p.hops.length ≤ countLimit) :
    LittleEndian.read p.layout 65 2 = p.hops.length := by
  have heq : p.layout = [version] ++ (p.sender.bytes ++ p.receiver.bytes) ++
      (LittleEndian.encode 2 p.hops.length ++ p.hops.flatMap Hop.encode) := by
    simp only [layout_eq, List.append_assoc]
  rw [heq, LittleEndian.read_encode (by simp) (Nat.lt_succ_of_le h)]

/-- **What is read from the bytes of a proof**: the proof, unless it has no hops or too many. -/
theorem decode_layout (h : p.hops.length ≤ countLimit) : decode maxHops p.layout =
    if p.hops.length = 0 ∨ maxHops < p.hops.length then .error (.hopCount p.hops.length maxHops)
    else .ok p := by
  have hlength := p.length_layout
  have hhead : p.layout.headD 0 = version := rfl
  have hsender : (p.layout.drop 1).take 32 = p.sender.bytes := by
    rw [layout_eq]
    exact Bytes.take_drop_append (a := [version]) rfl p.sender.length_bytes _
  have hreceiver : (p.layout.drop 33).take 32 = p.receiver.bytes := by
    rw [layout_eq, ← List.append_assoc]
    exact Bytes.take_drop_append (by simp) p.receiver.length_bytes _
  have hhops : p.layout.drop headerLength = p.hops.flatMap Hop.encode := by
    rw [layout]
    exact List.drop_left' (by simp [headerLength])
  unfold decode
  simp only [read_layout h, hhead, hlength, hhops, Hop.decodeList_flatMap, ne_eq,
    not_true_eq_false, if_false]
  rw [dif_neg (by omega)]
  refine ite_congr rfl (fun _ => rfl) fun _ => ?_
  congr 1
  obtain ⟨⟨sender⟩, ⟨receiver⟩, hops⟩ := p
  congr 2
  · exact Subtype.ext hsender
  · exact Subtype.ext hreceiver

theorem append_sections (bytes : Bytes) : bytes.take 1 ++ ((bytes.drop 1).take 32 ++
    ((bytes.drop 33).take 32 ++ ((bytes.drop 65).take 2 ++ bytes.drop 67))) = bytes := by
  rw [bytes.take_append_drop 65 2, bytes.take_append_drop 33 32, bytes.take_append_drop 1 32,
    List.take_append_drop]

/-- **Bytes from which a proof is read are its bytes.** -/
theorem layout_of_decode (h : decode maxHops bytes = .ok p) : p.layout = bytes ∧
    p.hops.length = LittleEndian.read bytes 65 2 ∧ 1 ≤ p.hops.length ∧ p.hops.length ≤ maxHops := by
  unfold decode at h
  dsimp only at h
  split_ifs at h with hshort hversion hcount hlength
  cases h
  simp only [headerLength] at hshort
  rw [Hop.length_decodeList]
  refine ⟨?_, rfl, by omega, by omega⟩
  rw [layout_eq]
  dsimp only
  rw [Hop.length_decodeList, Hop.flatMap_decodeList, LittleEndian.encode_read (by omega)]
  · -- All sections but the version are copied; the version was tested.
    refine Eq.trans ?_ (append_sections bytes)
    congr 1
    cases bytes with
    | nil => simp at hshort
    | cons b rest => simpa using (not_not.mp hversion).symm
  · rw [List.length_drop]
    omega

theorem encode_of_decode (h : decode maxHops bytes = .ok p) :
    (p.encode : Except (Fault α) Bytes) = .ok bytes := by
  obtain ⟨hlayout, hcount, -⟩ := layout_of_decode h
  have := LittleEndian.read_lt bytes 65 2
  exact encode_eq_ok_iff.mpr ⟨by rw [hcount]; unfold countLimit; omega, hlayout⟩

end PathProof

/-! ## Checked reading -/

/-- The byte string of length `n` at some place of a longer one, if it lies within. -/
def Octets.slice? (bytes : Bytes) (start n : ℕ) : Option (Octets n) :=
  if h : start + n ≤ bytes.length then some (slice bytes start n h) else none

theorem Octets.slice?_eq_some {bytes : Bytes} {start n : ℕ} (h : start + n ≤ bytes.length) :
    slice? bytes start n = some (slice bytes start n h) := dif_pos h

/-- The hop at some place of some bytes, if it lies within. -/
def Hop.readAt? (bytes : Bytes) (start : ℕ) : Option Hop := do
  let source ← Octets.slice? bytes start 4
  let target ← Octets.slice? bytes (start + 4) 4
  let nonce ← Octets.slice? bytes (start + 8) 8
  return ⟨UInt32.ofNat source.toNat, UInt32.ofNat target.toNat, UInt64.ofNat nonce.toNat⟩

theorem Hop.readAt?_eq_some {bytes : Bytes} {start : ℕ} (h : start + length ≤ bytes.length) :
    readAt? bytes start = some (decode (bytes.drop start)) := by
  unfold length at h
  simp only [readAt?, Octets.slice?_eq_some (show start + 4 ≤ bytes.length by omega),
    Octets.slice?_eq_some (show start + 4 + 4 ≤ bytes.length by omega),
    Octets.slice?_eq_some (show start + 8 + 8 ≤ bytes.length by omega), Option.bind_eq_bind,
    Option.bind_some]
  simp only [decode, LittleEndian.read, Octets.toNat, Octets.slice, List.drop_drop, Nat.add_zero]
  rfl

/-- Hops that follow each other, each read at its own place, are those read one after another. -/
theorem Hop.mapM_readAt? {bytes : Bytes} {start n : ℕ} (h : start + n * length ≤ bytes.length) :
    (List.range n).mapM (fun i => readAt? bytes (start + i * length)) =
      some (decodeList n (bytes.drop start)) := by
  induction n generalizing start with
  | zero => rfl
  | succ n ih =>
    rw [Nat.succ_mul] at h
    -- Seen from the second hop, every later one lies one hop less far away.
    have hshift : (fun i => readAt? bytes (start + i * length)) ∘ Nat.succ =
        fun i => readAt? bytes (start + length + i * length) := by
      funext i
      simp only [Function.comp_apply, Nat.succ_mul]
      congr 1
      omega
    rw [List.range_succ_eq_map, List.mapM_cons, List.mapM_map, hshift, ih (by omega),
      Nat.zero_mul, Nat.add_zero, readAt?_eq_some (by omega), decodeList, List.drop_drop]
    rfl

namespace PathProof

variable {maxHops : ℕ} {bytes : Bytes}

/-- The proof with the given bytes, each access to which is checked; no answer when one lies
outside. -/
def decodeChecked (maxHops : ℕ) (bytes : Bytes) : Option (Except Malformation PathProof) :=
  if bytes.length < headerLength then some (.error (.truncated bytes.length))
  else do
    let got ← bytes[0]?
    if got ≠ version then some (.error (.unknownVersion got))
    else do
      let sender ← Octets.slice? bytes 1 32
      let receiver ← Octets.slice? bytes 33 32
      let low ← bytes[65]?
      let high ← bytes[66]?
      let count := low.toNat + 256 * high.toNat
      let expected := headerLength + count * Hop.length
      if count = 0 ∨ maxHops < count then some (.error (.hopCount count maxHops))
      else if bytes.length ≠ expected then
        some (.error (.wrongLength expected count bytes.length))
      else do
        let hops ← (List.range count).mapM fun i =>
          Hop.readAt? bytes (headerLength + i * Hop.length)
        some (.ok ⟨⟨sender⟩, ⟨receiver⟩, hops⟩)

/-- **Reading never leaves the bytes**: no check fails. -/
theorem decodeChecked_eq (maxHops : ℕ) (bytes : Bytes) :
    decodeChecked maxHops bytes = some (decode maxHops bytes) := by
  unfold decodeChecked decode
  by_cases hshort : bytes.length < headerLength
  · rw [if_pos hshort, dif_pos hshort]
  rw [if_neg hshort, dif_neg hshort]
  unfold headerLength at hshort
  -- With a whole header there is a first byte, so the reader never takes its default.
  have hhead : bytes[0]? = some (bytes.headD 0) := by
    cases bytes with
    | nil => simp at hshort
    | cons b rest => rfl
  rw [hhead, Option.bind_eq_bind, Option.bind_some]
  by_cases hversion : bytes.headD 0 ≠ version
  · rw [if_pos hversion, if_pos hversion]
  rw [if_neg hversion, if_neg hversion, Octets.slice?_eq_some (by omega),
    Octets.slice?_eq_some (by omega), List.getElem?_eq_getElem (by omega),
    List.getElem?_eq_getElem (by omega)]
  have hcount : LittleEndian.read bytes 65 2 = bytes[65].toNat + 256 * bytes[66].toNat :=
    LittleEndian.read_two (by omega)
  simp only [Option.bind_eq_bind, Option.bind_some, ← hcount]
  split_ifs with hbound hlength
  · rfl
  · rfl
  · rw [Hop.mapM_readAt? (not_not.mp hlength).ge]
    rfl

/-! ## The form of the bytes -/

/-- The form of the bytes of a proof of at most so many hops: version 1, a number of hops in the two
bytes at 65, and 16 bytes for each after the first 67. -/
def Formed (maxHops : ℕ) (bytes : Bytes) : Prop :=
  ∃ low high : UInt8, ∃ count : ℕ, bytes[0]? = some 1 ∧ bytes[65]? = some low ∧
    bytes[66]? = some high ∧ count = low.toNat + 256 * high.toNat ∧ 1 ≤ count ∧
    count ≤ maxHops ∧ bytes.length = 67 + 16 * count

theorem exists_decode_iff : (∃ p, decode maxHops bytes = .ok p) ↔ Formed maxHops bytes := by
  constructor
  · rintro ⟨p, hp⟩
    obtain ⟨hlayout, hcount, hpos, hle⟩ := layout_of_decode hp
    have hlength := p.length_layout
    rw [hlayout, headerLength, Hop.length] at hlength
    rw [LittleEndian.read_two (by omega)] at hcount
    refine ⟨bytes[65], bytes[66], p.hops.length, ?_, List.getElem?_eq_getElem _,
      List.getElem?_eq_getElem _, hcount, hpos, hle, by omega⟩
    rw [← hlayout]
    rfl
  · rintro ⟨low, high, count, hversion, hlow, hhigh, hcount, hpos, hle, hlength⟩
    have hread : LittleEndian.read bytes 65 2 = count := by
      rw [List.getElem?_eq_getElem (by omega), Option.some.injEq] at hlow hhigh
      rw [LittleEndian.read_two (by omega), hlow, hhigh, hcount]
    have hhead : bytes.headD 0 = version := by
      rw [List.headD_eq_head?_getD, List.head?_eq_getElem?, hversion]
      rfl
    unfold decode
    dsimp only
    rw [dif_neg (by unfold headerLength; omega), if_neg (not_not.mpr hhead), hread,
      if_neg (by omega), if_neg (by unfold headerLength Hop.length; omega)]
    exact ⟨_, rfl⟩

/-- **Writing and reading proofs are inverse to each other**, and reading never leaves the bytes. -/
theorem encode_decode_bijective (α : Type) (maxHops : ℕ) :
    (∀ p : PathProof,
      ((∃ bytes, (p.encode : Except (Fault α) Bytes) = .ok bytes) ↔ p.hops.length ≤ 65535) ∧
      ∀ bytes, (p.encode : Except (Fault α) Bytes) = .ok bytes →
        (decode maxHops bytes = .ok p ↔ 1 ≤ p.hops.length ∧ p.hops.length ≤ maxHops) ∧
        (¬ (1 ≤ p.hops.length ∧ p.hops.length ≤ maxHops) →
          decode maxHops bytes = .error (.hopCount p.hops.length maxHops))) ∧
    (∀ bytes p, decode maxHops bytes = .ok p → (p.encode : Except (Fault α) Bytes) = .ok bytes) ∧
    (∀ bytes, (∃ p, decode maxHops bytes = .ok p) ↔ Formed maxHops bytes) ∧
    ∀ bytes, decodeChecked maxHops bytes = some (decode maxHops bytes) := by
  refine ⟨fun p => ⟨?_, fun bytes hbytes => ?_⟩, fun _ _ => encode_of_decode,
    fun _ => exists_decode_iff, decodeChecked_eq maxHops⟩
  · simp only [encode_eq_ok_iff, exists_and_left, exists_eq', and_true]
    rfl
  · obtain ⟨hle, rfl⟩ := encode_eq_ok_iff.mp hbytes
    rw [decode_layout hle]
    split_ifs with hbound
    · exact ⟨iff_of_false (by simp) (by omega), fun _ => rfl⟩
    · exact ⟨iff_of_true rfl (by omega), fun h => absurd (by omega) h⟩

end PathProof

end WebOfTrust
