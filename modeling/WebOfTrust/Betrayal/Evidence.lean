import WebOfTrust.Betrayal.Cycle

/-!
# Evidence of betrayal

The evidence against a node is the worst negative cycle within its reach. It is written as the
number of its edges in two bytes and 24 bytes for each edge: source, target, the word of the risk,
and nonce, all little-endian.

* `Evidence`: `nodes`, `encode`, `digest`;
* `Graph.evidence?`: the evidence from a node.
-/

namespace WebOfTrust

/-- A negative cycle, gathered for a node. -/
structure Evidence (α : Type) where
  node : NodeId
  /-- The edges in their direction, from the one that leaves the least node on. -/
  edges : List (Edge α)
  /-- The sum of the risks. -/
  total : α

namespace Evidence

variable {α : Type} (e : Evidence α)

/-- The nodes of the cycle. -/
def nodes : List NodeId := e.edges.map (·.source)

variable [WordForm α]

/-- The 24 bytes of an edge. -/
def encodeEdge (e : Edge α) : Bytes :=
  LittleEndian.encode 4 e.source.toNat ++ LittleEndian.encode 4 e.target.toNat ++
    LittleEndian.encode 8 (WordForm.word e.risk).toNat ++ LittleEndian.encode 8 e.nonce.toNat

/-- The bytes of the evidence, if two bytes can count its edges. -/
def encode : Except (Fault α) Bytes :=
  if 65535 < e.edges.length then .error (.evidenceTooLarge e.edges.length)
  else .ok (LittleEndian.encode 2 e.edges.length ++ e.edges.flatMap encodeEdge)

/-- The digest of the bytes under some hash. -/
def digest (hash : Bytes → Octets 32) : Except (Fault α) (Octets 32) :=
  match e.encode with
  | .ok bytes => .ok (hash bytes)
  | .error f => .error f

end Evidence

/-- The evidence from a node: the worst negative cycle within reach. -/
def Graph.evidence? {α : Type} [Arith α] (g : Graph α) (node : NodeId) (now : Instant) :
    Option (Evidence α) :=
  match g.worstCycle? node (g.reachable node now) now with
  | some c => some ⟨node, c.edges, c.total⟩
  | none => none

end WebOfTrust
