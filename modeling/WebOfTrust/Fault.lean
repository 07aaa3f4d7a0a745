import WebOfTrust.Decimal.Shortest
import WebOfTrust.Identity

/-!
# Faults

What can be wrong with a request: its form, or the state it meets. Findings about the graph, such
as a revoked path or a negative cycle, are answers and not faults.

* `Fault`: the causes;
* `Fault.isMalformedInput`: whether the request was at fault and not the state;
* `Fault.message`: the text of a fault.
-/

namespace WebOfTrust

/-- The cause of a failed request. -/
inductive Fault (α : Type) where
  /-- An identity without exactly 32 bytes. -/
  | malformedIdentity (length : Nat)
  /-- A risk that is not a number from -1 to 1. -/
  | invalidRisk (risk : α)
  /-- A trust level above the highest. -/
  | invalidTrustLevel (level : UInt8)
  /-- An edge that expires no later than it begins. -/
  | invalidExpiration (timestamp expiration : UInt64)
  /-- No live edge joins the two nodes. -/
  | edgeNotFound (source target : NodeId)
  /-- Bytes that are not the encoding of a path proof. -/
  | malformedProof (detail : String)
  /-- A node without an identity. -/
  | unknownNode (node : NodeId)
  /-- All numbers of nodes are taken. -/
  | nodeSpaceExhausted
  /-- No negative cycle is within reach of the node. -/
  | noEvidence (node : NodeId)
  /-- A path proof with more hops than its encoding can count. -/
  | proofTooLong (hops : Nat)
  /-- A cycle with more edges than its encoding can count. -/
  | evidenceTooLarge (edges : Nat)
  /-- A code that names no reason for a slash signal. -/
  | invalidSlashReason (code : UInt8)
  /-- A slash signal without exactly 82 bytes. -/
  | malformedSlashSignal (length : Nat)
  /-- A configuration that cannot be read or used. -/
  | configuration (detail : String)
deriving DecidableEq

namespace Fault

/-- Whether the fault lies in the form of the request. -/
def isMalformedInput {α : Type} : Fault α → Bool
  | malformedIdentity _ | invalidRisk _ | invalidTrustLevel _ | invalidExpiration _ _
  | malformedProof _ | proofTooLong _ | invalidSlashReason _ | malformedSlashSignal _ => true
  | edgeNotFound _ _ | unknownNode _ | nodeSpaceExhausted | noEvidence _ | evidenceTooLarge _
  | configuration _ => false

/-- The text of a fault. -/
def message : Fault Float → String
  | malformedIdentity length => s!"Malformed identity: expected 32 bytes, got {length}"
  | invalidRisk risk => s!"Invalid risk weight: {Decimal.ofFloat risk}"
  | invalidTrustLevel level => s!"Invalid trust level: {level.toNat}"
  | invalidExpiration timestamp expiration =>
    s!"Invalid expiration: expires_at_ns={expiration.toNat} <= timestamp_ns={timestamp.toNat}"
  | edgeNotFound source target => s!"Edge not found: {source.toNat} -> {target.toNat}"
  | malformedProof detail => s!"Malformed proof: {detail}"
  | unknownNode node => s!"Unknown node: {node.toNat}"
  | nodeSpaceExhausted => "Node id space exhausted"
  | noEvidence node => s!"No betrayal evidence for node {node.toNat}"
  | proofTooLong hops => s!"Proof too long: {hops} hops exceed the 65535 hop limit"
  | evidenceTooLarge edges => s!"Evidence too large: {edges} edges exceed the 65535 edge limit"
  | invalidSlashReason code => s!"Invalid slash reason: {code.toNat}"
  | malformedSlashSignal length => s!"Malformed slash signal: expected 82 bytes, got {length}"
  | configuration detail => s!"Configuration error: {detail}"

end Fault

end WebOfTrust
