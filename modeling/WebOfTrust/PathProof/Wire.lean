import WebOfTrust.Fault

/-!
# The bytes of a path proof

A path proof claims that a message went from a sender to a receiver over a chain of edges. It is
written as a version byte, the two identities, the number of hops in two bytes, and 16 bytes for
each hop: source, target and nonce, all little-endian, with nothing before, between or after.

* `Hop`, `PathProof`;
* `PathProof.encode`: the bytes of a proof;
* `PathProof.decode`: the proof with given bytes, of a bounded number of hops;
* `PathProof.Malformation`: why bytes are not those of a proof.
-/

namespace WebOfTrust

/-- The use of an edge on a path, with a nonce to be spent on it. -/
structure Hop where
  source : NodeId
  target : NodeId
  nonce : UInt64
deriving DecidableEq

/-- A claimed path between two agents. -/
structure PathProof where
  sender : Identity
  receiver : Identity
  hops : List Hop
deriving DecidableEq

namespace Hop

/-- The length of a hop's bytes. -/
def length : Nat := 16

/-- The bytes of a hop. -/
def encode (h : Hop) : Bytes :=
  LittleEndian.encode 4 h.source.toNat ++ LittleEndian.encode 4 h.target.toNat ++
    LittleEndian.encode 8 h.nonce.toNat

/-- The hop at the front of some bytes. -/
def decode (bytes : Bytes) : Hop :=
  { source := UInt32.ofNat (LittleEndian.read bytes 0 4)
    target := UInt32.ofNat (LittleEndian.read bytes 4 4)
    nonce := UInt64.ofNat (LittleEndian.read bytes 8 8) }

/-- Some hops at the front of some bytes. -/
def decodeList : Nat → Bytes → List Hop
  | 0, _ => []
  | n + 1, bytes => decode bytes :: decodeList n (bytes.drop length)

end Hop

namespace PathProof

/-- The version of the format. -/
def version : UInt8 := 1

/-- The length of the bytes before the hops. -/
def headerLength : Nat := 67

/-- The largest number of hops that two bytes can write. -/
def countLimit : Nat := 65535

/-- The bytes of a proof, if two bytes can count its hops. -/
def encode {α : Type} (p : PathProof) : Except (Fault α) Bytes :=
  if countLimit < p.hops.length then .error (.proofTooLong p.hops.length)
  else
    .ok (version :: p.sender.bytes ++ p.receiver.bytes ++
      LittleEndian.encode 2 p.hops.length ++ p.hops.flatMap Hop.encode)

/-- Why bytes are not those of a proof. -/
inductive Malformation where
  /-- There are fewer bytes than come before the hops. -/
  | truncated (length : Nat)
  /-- The version is not known. -/
  | unknownVersion (got : UInt8)
  /-- There are no hops, or more than allowed. -/
  | hopCount (got limit : Nat)
  /-- The length does not fit the number of hops. -/
  | wrongLength (expected hops got : Nat)
deriving DecidableEq

/-- The text of a malformation. -/
def Malformation.describe : Malformation → String
  | truncated length => s!"truncated header: {length} bytes"
  | unknownVersion got => s!"unsupported version {got.toNat}"
  | hopCount got limit => s!"hop count {got} outside 1..={limit}"
  | wrongLength expected hops got => s!"expected {expected} bytes for {hops} hops, got {got}"

/-- The proof with the given bytes, of at most so many hops. -/
def decode (maxHops : Nat) (bytes : Bytes) : Except Malformation PathProof :=
  if h : bytes.length < headerLength then .error (.truncated bytes.length)
  else if bytes.headD 0 ≠ version then .error (.unknownVersion (bytes.headD 0))
  else
    let count := LittleEndian.read bytes 65 2
    let expected := headerLength + count * Hop.length
    if count = 0 ∨ maxHops < count then .error (.hopCount count maxHops)
    else if bytes.length ≠ expected then .error (.wrongLength expected count bytes.length)
    else
      .ok
        { sender := ⟨Octets.slice bytes 1 32 (by unfold headerLength at h; omega)⟩
          receiver := ⟨Octets.slice bytes 33 32 (by unfold headerLength at h; omega)⟩
          hops := Hop.decodeList count (bytes.drop headerLength) }

end PathProof

end WebOfTrust
