import WebOfTrust.Fault

/-!
# The registry of identities

The registry gives every identity a node of its own. An identity gets the node it prefers; when
another identity holds that one, it gets the next free number, counting upwards and from the
highest number on to zero. What an identity prefers is a parameter.

* `Registry`: `lookup`, `identityOf`, `size`;
* `Registry.firstFree?`: the first free node from a number on;
* `Registry.resolve`, `Registry.resolveBytes`: the node of an identity, assigned on first sight.
-/

namespace WebOfTrust

/-- The identities known so far, each with its node, and the nodes, each with its identity. -/
structure Registry where
  nodes : Table Identity NodeId
  identities : Table NodeId Identity

namespace Registry

variable {α : Type}

/-- The registry without identities. -/
def empty : Registry := ⟨Table.empty, Table.empty⟩

variable (r : Registry)

/-- The node of an identity. -/
def lookup (i : Identity) : Option NodeId := r.nodes.get? i

/-- The node of an identity given by its bytes. -/
def lookupBytes (bytes : Bytes) : Except (Fault α) (Option NodeId) :=
  match Identity.ofBytes? bytes with
  | some i => .ok (r.lookup i)
  | none => .error (.malformedIdentity bytes.length)

/-- The identity of a node. -/
def identityOf (node : NodeId) : Option Identity := r.identities.get? node

/-- The number of identities. -/
def size : Nat := r.nodes.size

/-- The first free one among some numbers from a node on. -/
def firstFree? : (tries : Nat) → NodeId → Option NodeId
  | 0, _ => none
  | tries + 1, node =>
    if r.identities.contains node then firstFree? tries (node + 1) else some node

/-- Enter an identity with its node. -/
def assign (i : Identity) (node : NodeId) : Registry :=
  ⟨r.nodes.insert i node, r.identities.insert node i⟩

/-- The node of an identity. On first sight it is assigned the first free node from the preferred
one on, which fails only when every node is taken. -/
def resolve (prefer : Identity → NodeId) (i : Identity) : Except (Fault α) NodeId × Registry :=
  match r.lookup i with
  | some node => (.ok node, r)
  | none =>
    match r.firstFree? UInt32.size (prefer i) with
    | some node => (.ok node, r.assign i node)
    | none => (.error .nodeSpaceExhausted, r)

/-- The node of an identity given by its bytes. -/
def resolveBytes (prefer : Identity → NodeId) (bytes : Bytes) :
    Except (Fault α) NodeId × Registry :=
  match Identity.ofBytes? bytes with
  | some i => r.resolve prefer i
  | none => (.error (.malformedIdentity bytes.length), r)

end Registry

end WebOfTrust
