import WebOfTrust.Digest.Blake3
import WebOfTrust.Table

/-!
# Identities and nodes

An agent is known by an identity of 32 bytes. Inside the library it is a node, a number of 32
bits, which its identity prefers for itself by its digest.

* `NodeId`: the numbers of nodes;
* `Identity`: `ofBytes?`, `label`, `text`;
* `Identity.preferred`: the node that an identity asks for.
-/

namespace WebOfTrust

/-- The number of a node. -/
abbrev NodeId : Type := UInt32

/-- An agent's identity. -/
structure Identity where
  octets : Octets 32
deriving DecidableEq

namespace Identity

/-- The bytes of an identity. -/
def bytes (i : Identity) : Bytes := i.octets.val

/-- A byte string as an identity, when it has 32 bytes. -/
def ofBytes? (bytes : Bytes) : Option Identity := (Octets.ofBytes? 32 bytes).map mk

instance : Key Identity where
  rank i := i.octets.toNat
  rank_inj {a b} h := by
    obtain ⟨a⟩ := a
    obtain ⟨b⟩ := b
    exact congrArg mk (Octets.toNat_inj h)

/-- The first eight bytes of an identity as text, enough to tell agents apart at a glance. -/
def label (i : Identity) : String := Bytes.hex (i.bytes.take 8)

/-- The whole identity as text. -/
def text (i : Identity) : String := "Identity(" ++ Bytes.hex i.bytes ++ ")"

/-- The node that an identity asks for: the first four bytes of its digest. -/
def preferred (i : Identity) : NodeId :=
  UInt32.ofNat (LittleEndian.decode ((Blake3.digest i.bytes).val.take 4))

end Identity

end WebOfTrust
