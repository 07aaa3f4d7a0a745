import Mathlib
import WebOfTrust.Bytes.Lemmas
import WebOfTrust.Slash

/-!
# The format of slash signals

The fields of a signal stand at fixed places in its 82 bytes. The writer puts them one after the
other and the reader takes each from its place, so the two are compared by way of the places.

* `SlashSignal.reasonOf_eq_ok_iff`, `SlashSignal.make_eq_ok_iff`: the reasons to slash, and the
  signals that have one;
* `SlashSignal.Laid`: the fields of a signal stand at their places in some bytes;
  **`SlashSignal.laid_iff`**: these are the bytes that are written;
* **`SlashSignal.decode_eq_ok_iff`**: the signal that is read is the one laid there;
* **`SlashSignal.format_exact`**: which bytes are read, as what, and what is wrong with all others.
-/

namespace WebOfTrust.SlashSignal

variable {α : Type} {s s' : SlashSignal} {bytes : Bytes} {code : UInt8} {reason : Reason}

/-! ## Reasons to slash -/

theorem reason_code_injective : Function.Injective Reason.code := by
  intro r r' h
  cases r <;> cases r' <;> simp_all [Reason.code]

theorem reasonOf_eq_ok_iff : (reasonOf code : Except (Fault α) Reason) = .ok reason ↔
    reason.code = code ∧ reason ≠ .none := by
  unfold reasonOf Reason.ofCode?
  split_ifs <;> cases reason <;> simp_all [Reason.code, eq_comm]

theorem reasonOf_cases (code : UInt8) :
    (reasonOf code : Except (Fault α) Reason) = .error (.invalidSlashReason code) ∨
      ∃ reason, (reasonOf code : Except (Fault α) Reason) = .ok reason ∧ reason ≠ .none := by
  unfold reasonOf
  cases Reason.ofCode? code with
  | none => exact .inl rfl
  | some reason => cases reason <;> simp

theorem exists_reasonOf_iff :
    (∃ reason, (reasonOf code : Except (Fault α) Reason) = .ok reason) ↔ code ∈ [1, 2, 3] := by
  simp only [reasonOf_eq_ok_iff]
  constructor
  · rintro ⟨reason, rfl, hne⟩
    cases reason <;> simp_all [Reason.code]
  · intro h
    simp only [List.mem_cons, List.not_mem_nil, or_false] at h
    rcases h with rfl | rfl | rfl
    · exact ⟨.negativeCycle, rfl, Reason.noConfusion⟩
    · exact ⟨.lowCoverage, rfl, Reason.noConfusion⟩
    · exact ⟨.divergence, rfl, Reason.noConfusion⟩

theorem reasonOf_of_notMem (h : code ∉ [1, 2, 3]) :
    (reasonOf code : Except (Fault α) Reason) = .error (.invalidSlashReason code) := by
  rcases reasonOf_cases (α := α) code with hr | ⟨reason, hr, -⟩
  · exact hr
  · exact absurd (exists_reasonOf_iff.mp ⟨reason, hr⟩) h

theorem make_eq_ok_iff {target : Identity} {evidence : Octets 32} {timestamp : UInt64}
    {severity : UInt8} {nonce : UInt64} :
    (make target reason evidence timestamp severity nonce : Except (Fault α) SlashSignal) = .ok s ↔
      reason ≠ .none ∧ s = ⟨target, reason, evidence, timestamp, severity, nonce⟩ := by
  unfold make
  split_ifs with h
  · simp [h]
  · simp [h, eq_comm]

/-! ## The places of the fields -/

/-- The fields of a signal stand at their places in some bytes. -/
structure Laid (s : SlashSignal) (bytes : Bytes) : Prop where
  length : bytes.length = 82
  target : bytes.take 32 = s.target.bytes
  reason : bytes[32]? = some s.reason.code
  evidence : (bytes.drop 33).take 32 = s.evidence.val
  timestamp : LittleEndian.read bytes 65 8 = s.timestamp.toNat
  severity : bytes[73]? = some s.severity
  nonce : LittleEndian.read bytes 74 8 = s.nonce.toNat

@[simp] theorem length_encode (s : SlashSignal) : s.encode.length = 82 := by
  simp [encode, Identity.bytes, s.target.octets.property, s.evidence.property]

theorem laid_encode (s : SlashSignal) : s.Laid s.encode := by
  have htarget : s.target.bytes.length = 32 := s.target.octets.property
  have hevidence : s.evidence.val.length = 32 := s.evidence.property
  -- In each case the bytes are divided in front of the field and behind it.
  constructor
  case length => exact s.length_encode
  case target =>
    simp only [encode, List.append_assoc]
    exact List.take_left' htarget
  case reason =>
    rw [encode, List.append_assoc, List.append_assoc, List.append_assoc, List.append_assoc]
    exact Bytes.getElem?_append htarget _ _
  case evidence =>
    rw [encode, List.append_assoc, List.append_assoc, List.append_assoc]
    exact Bytes.take_drop_append (by simp [htarget]) hevidence _
  case timestamp =>
    rw [encode, List.append_assoc, List.append_assoc]
    exact LittleEndian.read_encode (by simp [htarget, hevidence]) s.timestamp.toNat_lt _
  case severity =>
    rw [encode, List.append_assoc]
    exact Bytes.getElem?_append (by simp [htarget, hevidence]) _ _
  case nonce =>
    rw [encode, ← List.append_nil (LittleEndian.encode 8 s.nonce.toNat)]
    exact LittleEndian.read_encode (by simp [htarget, hevidence]) s.nonce.toNat_lt _

theorem Laid.encode_eq (h : s.Laid bytes) : s.encode = bytes := by
  have hlength := h.length
  have htimestamp : LittleEndian.encode 8 s.timestamp.toNat = (bytes.drop 65).take 8 := by
    rw [← h.timestamp, LittleEndian.encode_read (by omega)]
  have hnonce : LittleEndian.encode 8 s.nonce.toNat = bytes.drop 74 := by
    rw [← h.nonce, LittleEndian.encode_read (by omega)]
    exact List.take_of_length_le (by rw [List.length_drop]; omega)
  rw [encode, ← h.target, ← Bytes.take_one h.reason, ← h.evidence, htimestamp,
    ← Bytes.take_one h.severity, hnonce]
  simp only [List.append_assoc]
  rw [bytes.take_append_drop 73 1, bytes.take_append_drop 65 8, bytes.take_append_drop 33 32,
    bytes.take_append_drop 32 1, List.take_append_drop]

/-- **The bytes in which the fields stand at their places are those that are written.** -/
theorem laid_iff : s.Laid bytes ↔ s.encode = bytes :=
  ⟨Laid.encode_eq, fun h => h ▸ s.laid_encode⟩

theorem Laid.unique (h : s.Laid bytes) (h' : s'.Laid bytes) : s = s' := by
  obtain ⟨⟨target⟩, reason, evidence, timestamp, severity, nonce⟩ := s
  obtain ⟨⟨target'⟩, reason', evidence', timestamp', severity', nonce'⟩ := s'
  obtain rfl : target = target' := Subtype.ext (h.target.symm.trans h'.target)
  obtain rfl : reason = reason' :=
    reason_code_injective (Option.some.inj (h.reason.symm.trans h'.reason))
  obtain rfl : evidence = evidence' := Subtype.ext (h.evidence.symm.trans h'.evidence)
  obtain rfl : timestamp = timestamp' :=
    UInt64.toNat_inj.mp (h.timestamp.symm.trans h'.timestamp)
  obtain rfl : severity = severity' := Option.some.inj (h.severity.symm.trans h'.severity)
  obtain rfl : nonce = nonce' := UInt64.toNat_inj.mp (h.nonce.symm.trans h'.nonce)
  rfl

theorem encode_injective : Function.Injective encode := fun s _ h =>
  s.laid_encode.unique (laid_iff.mpr h.symm)

/-! ## Reading -/

theorem decode_of_length_ne (h : bytes.length ≠ 82) :
    (decode bytes : Except (Fault α) SlashSignal) = .error (.malformedSlashSignal bytes.length) :=
  dif_pos h

theorem decode_of_reasonOf_error {f : Fault α} (h : bytes.length = 82)
    (hcode : bytes[32]? = some code) (hreason : reasonOf code = .error f) :
    decode bytes = .error f := by
  obtain ⟨_, rfl⟩ := List.getElem?_eq_some_iff.mp hcode
  unfold decode
  rw [dif_neg (show ¬ bytes.length ≠ length from not_not.mpr h)]
  simp only [hreason]

theorem exists_decode (h : bytes.length = 82) (hcode : bytes[32]? = some code)
    (hreason : (reasonOf code : Except (Fault α) Reason) = .ok reason) :
    ∃ s, (decode bytes : Except (Fault α) SlashSignal) = .ok s ∧ s.Laid bytes ∧
      s.reason = reason := by
  obtain ⟨_, rfl⟩ := List.getElem?_eq_some_iff.mp hcode
  unfold decode
  rw [dif_neg (show ¬ bytes.length ≠ length from not_not.mpr h)]
  simp only [hreason]
  refine ⟨_, rfl, ⟨h, rfl, ?_, rfl, ?_, List.getElem?_eq_getElem _, ?_⟩, rfl⟩
  · rw [hcode, (reasonOf_eq_ok_iff.mp hreason).1]
  · exact (UInt64.toNat_ofNat_of_lt' (LittleEndian.read_lt bytes 65 8)).symm
  · exact (UInt64.toNat_ofNat_of_lt' (LittleEndian.read_lt bytes 74 8)).symm

/-- **The signal that is read is the one that is laid there**, if it has a reason to slash. -/
theorem decode_eq_ok_iff : (decode bytes : Except (Fault α) SlashSignal) = .ok s ↔
    s.Laid bytes ∧ s.reason ≠ .none := by
  constructor
  · intro h
    have hlength : bytes.length = 82 := by
      by_contra hne
      rw [decode_of_length_ne hne] at h
      cases h
    have hcode : bytes[32]? = some bytes[32] := List.getElem?_eq_getElem _
    cases hreason : (reasonOf bytes[32] : Except (Fault α) Reason) with
    | error f =>
      rw [decode_of_reasonOf_error hlength hcode hreason] at h
      cases h
    | ok reason =>
      obtain ⟨s', hs', hlaid, rfl⟩ := exists_decode hlength hcode hreason
      obtain rfl : s = s' := Except.ok.inj (h.symm.trans hs')
      exact ⟨hlaid, (reasonOf_eq_ok_iff.mp hreason).2⟩
  · rintro ⟨hlaid, hne⟩
    obtain ⟨s', hs', hlaid', -⟩ :=
      exists_decode (α := α) hlaid.length hlaid.reason (reasonOf_eq_ok_iff.mpr ⟨rfl, hne⟩)
    rw [hs', hlaid.unique hlaid']

theorem exists_decode_iff : (∃ s, (decode bytes : Except (Fault α) SlashSignal) = .ok s) ↔
    bytes.length = 82 ∧ ∃ code : UInt8, code ∈ [1, 2, 3] ∧ bytes[32]? = some code := by
  constructor
  · rintro ⟨s, hs⟩
    obtain ⟨hlaid, hne⟩ := decode_eq_ok_iff.mp hs
    have hcode : s.reason.code ∈ [1, 2, 3] :=
      exists_reasonOf_iff.mp ⟨s.reason, reasonOf_eq_ok_iff (α := α).mpr ⟨rfl, hne⟩⟩
    exact ⟨hlaid.length, s.reason.code, hcode, hlaid.reason⟩
  · rintro ⟨hlength, code, hmem, hcode⟩
    obtain ⟨reason, hreason⟩ := exists_reasonOf_iff (α := α).mpr hmem
    obtain ⟨s, hs, -⟩ := exists_decode hlength hcode hreason
    exact ⟨s, hs⟩

/-- **The format of signals is exact**: 82 bytes for each one with a reason, and no others. -/
theorem format_exact (α : Type) :
    (∀ s : SlashSignal, s.Laid s.encode ∧ (s.reason ≠ .none →
      (decode s.encode : Except (Fault α) SlashSignal) = .ok s)) ∧
    (∀ bytes : Bytes, (∃ s, (decode bytes : Except (Fault α) SlashSignal) = .ok s) ↔
      bytes.length = 82 ∧ ∃ code : UInt8, code ∈ [1, 2, 3] ∧ bytes[32]? = some code) ∧
    (∀ (bytes : Bytes) s, (decode bytes : Except (Fault α) SlashSignal) = .ok s →
      s.encode = bytes) ∧
    (∀ bytes : Bytes, bytes.length ≠ 82 →
      (decode bytes : Except (Fault α) SlashSignal) = .error (.malformedSlashSignal bytes.length)) ∧
    (∀ (bytes : Bytes) (code : UInt8), bytes.length = 82 → bytes[32]? = some code →
      code ∉ [1, 2, 3] →
      (decode bytes : Except (Fault α) SlashSignal) = .error (.invalidSlashReason code)) ∧
    (∀ s, (∃ target reason evidence timestamp severity nonce, (make target reason evidence timestamp
      severity nonce : Except (Fault α) SlashSignal) = .ok s) ↔ s.reason ≠ .none) ∧
    Set.InjOn encode {s | s.reason ≠ .none} := by
  refine ⟨fun s => ⟨s.laid_encode, fun h => decode_eq_ok_iff.mpr ⟨s.laid_encode, h⟩⟩,
    fun _ => exists_decode_iff, fun bytes s h => (decode_eq_ok_iff.mp h).1.encode_eq,
    fun _ => decode_of_length_ne, fun bytes code hlength hcode hmem => ?_, fun s => ?_,
    encode_injective.injOn⟩
  · exact decode_of_reasonOf_error hlength hcode (reasonOf_of_notMem hmem)
  · simp only [make_eq_ok_iff]
    constructor
    · rintro ⟨target, reason, evidence, timestamp, severity, nonce, hne, rfl⟩
      exact hne
    · intro hne
      exact ⟨_, _, _, _, _, _, hne, rfl⟩

section Ramp

/-- Bytes of which each is the number of its place. -/
def places : Bytes := (List.range 82).map UInt8.ofNat

/-- The signal with these bytes, but for its reason. -/
def ramp : SlashSignal where
  target := ⟨Octets.slice places 0 32 (by decide)⟩
  reason := .lowCoverage
  evidence := Octets.slice places 33 32 (by decide)
  timestamp := 0x4847464544434241
  severity := 73
  nonce := 0x51504f4e4d4c4b4a

/-- The signal is read from those bytes once they have a reason in the place of byte 32. -/
theorem format_exact_ramp :
    (decode (places.set 32 2) : Except (Fault ℚ) SlashSignal) = .ok ramp ∧
      (decode places : Except (Fault ℚ) SlashSignal) = .error (.invalidSlashReason 32) ∧
      (decode (places.drop 1) : Except (Fault ℚ) SlashSignal) =
        .error (.malformedSlashSignal 81) := by
  obtain ⟨hread, -, -, hlength, hreason, -⟩ := format_exact ℚ
  have hbytes : ramp.encode = places.set 32 2 := by decide
  refine ⟨?_, hreason places 32 (by decide) (by decide) (by decide), hlength _ (by decide)⟩
  rw [← hbytes]
  exact (hread ramp).2 (by decide)

end Ramp

end WebOfTrust.SlashSignal
