import WebOfTrust.Betrayal.Anomaly
import WebOfTrust.Fault

/-!
# Slash signals

A slash signal reports a betrayer to those who can act on it: whom, why, with the digest of what
evidence, when, and how bad it is. It is written in 82 bytes:

| Offset | Size | Field                    |
|--------|------|--------------------------|
| 0      | 32   | target                   |
| 32     | 1    | number of the reason     |
| 33     | 32   | digest of the evidence   |
| 65     | 8    | time, little-endian      |
| 73     | 1    | severity                 |
| 74     | 8    | nonce, little-endian     |

* `SlashSignal`: `make`, `encode`, `decode`, `digest`;
* `SlashSignal.reasonOf`: the reason with a number, if it is a reason to slash;
* `severity`: a score as a byte.
-/

namespace WebOfTrust

/-- A report of a betrayal. -/
structure SlashSignal where
  target : Identity
  reason : Reason
  /-- The digest of the evidence. -/
  evidence : Octets 32
  timestamp : UInt64
  severity : UInt8
  nonce : UInt64
deriving DecidableEq

namespace SlashSignal

variable {α : Type}

/-- The length of a signal's bytes. -/
def length : Nat := 82

/-- A signal, provided that it has a reason. -/
def make (target : Identity) (reason : Reason) (evidence : Octets 32) (timestamp : UInt64)
    (severity : UInt8) (nonce : UInt64) : Except (Fault α) SlashSignal :=
  if reason = .none then .error (.invalidSlashReason reason.code)
  else .ok ⟨target, reason, evidence, timestamp, severity, nonce⟩

/-- The bytes of a signal. -/
def encode (s : SlashSignal) : Bytes :=
  s.target.bytes ++ [s.reason.code] ++ s.evidence.val ++
    LittleEndian.encode 8 s.timestamp.toNat ++ [s.severity] ++
    LittleEndian.encode 8 s.nonce.toNat

/-- The reason with a number, if it is a reason to slash. -/
def reasonOf (code : UInt8) : Except (Fault α) Reason :=
  match Reason.ofCode? code with
  | some .none => .error (.invalidSlashReason code)
  | some reason => .ok reason
  | none => .error (.invalidSlashReason code)

/-- The signal with the given bytes. -/
def decode (bytes : Bytes) : Except (Fault α) SlashSignal :=
  if h : bytes.length ≠ length then .error (.malformedSlashSignal bytes.length)
  else
    have h : bytes.length = 82 := by unfold length at h; omega
    match reasonOf bytes[32] with
    | .error f => .error f
    | .ok reason =>
      .ok
        { target := ⟨Octets.slice bytes 0 32 (by omega)⟩
          reason := reason
          evidence := Octets.slice bytes 33 32 (by omega)
          timestamp := UInt64.ofNat (LittleEndian.read bytes 65 8)
          severity := bytes[73]
          nonce := UInt64.ofNat (LittleEndian.read bytes 74 8) }

/-- The digest of a signal's bytes under some hash. -/
def digest (s : SlashSignal) (hash : Bytes → Octets 32) : Octets 32 := hash s.encode

end SlashSignal

/-- A score from 0 to 1 as a byte, and zero for what is not a number. -/
def severity {α : Type} [Arith α] (score : α) : UInt8 :=
  if Arith.isFinite score then
    UInt8.ofNat (Arith.roundHalfUp (Arith.clampUnit score * (255 : Nat)))
  else 0

end WebOfTrust
