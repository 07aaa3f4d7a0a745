import WebOfTrust.Edge

/-!
# The risk graph

The graph keeps one record for every pair of nodes that an edge has ever joined: the last edge
put there, the time of its revocation if it was revoked, and the nonces spent on the pair. Nothing
is ever removed. An edge is live when it is neither revoked nor expired, which is judged anew by
every query.

* `Record`: `isLive`, `isSpent`;
* `Graph`: `add`, `revoke`, `spend` change it;
* `record?`, `lookup`, `outgoing`, `incoming`, `recordsFrom`, `liveCount` read it.
-/

namespace WebOfTrust

/-- What is known of a pair of nodes. -/
structure Record (α : Type) where
  /-- The last edge put there. -/
  edge : Edge α
  /-- When that edge was revoked. -/
  revokedAt : Option Instant
  /-- The nonces spent by path proofs. -/
  spent : KeySet UInt64

namespace Record

variable {α : Type} (r : Record α)

/-- A record of a new edge. -/
def ofEdge (e : Edge α) : Record α := ⟨e, none, Table.empty⟩

/-- Whether the edge was revoked. -/
def isRevoked : Bool := r.revokedAt.isSome

/-- Whether the edge is neither revoked nor expired. -/
def isLive (now : Instant) : Bool := !r.isRevoked && !r.edge.isExpired now

/-- Whether a path proof has spent a nonce. -/
def isSpent (nonce : UInt64) : Bool := r.spent.contains nonce

end Record

/-- Records by pair of nodes, and for every target the sources that have a record. -/
structure Graph (α : Type) where
  records : Table Arc (Record α)
  sources : Table NodeId (KeySet NodeId)

namespace Graph

variable {α : Type}

/-- The graph without records. -/
def empty : Graph α := ⟨Table.empty, Table.empty⟩

variable (g : Graph α)

/-- The record of a pair. -/
def record? (a : Arc) : Option (Record α) := g.records.get? a

/-- The sources with a record to a target. -/
def sourcesOf (target : NodeId) : KeySet NodeId := (g.sources.get? target).getD Table.empty

/-! ## Changes -/

/-- Put an edge in the place of the last one of its pair. It is live again if that one was
revoked; spent nonces stay spent. -/
def put (e : Edge α) : Graph α :=
  match g.record? e.arc with
  | some r => { g with records := g.records.insert e.arc { r with edge := e, revokedAt := none } }
  | none =>
    { records := g.records.insert e.arc (Record.ofEdge e)
      sources := g.sources.insert e.target ((g.sourcesOf e.target).add e.source) }

/-- Put an edge if nothing is wrong with it. -/
def add [Arith α] (e : Edge α) : Except (Fault α) Unit × Graph α :=
  match e.fault? with
  | some f => (.error f, g)
  | none => (.ok (), g.put e)

/-- Revoke the live edge of a pair. -/
def revoke (a : Arc) (now : Instant) : Except (Fault α) (Edge α) × Graph α :=
  match g.record? a with
  | some r =>
    if r.isLive now then
      (.ok r.edge, { g with records := g.records.insert a { r with revokedAt := some now } })
    else (.error (.edgeNotFound a.source a.target), g)
  | none => (.error (.edgeNotFound a.source a.target), g)

/-- Spend a nonce on a pair; whether there is a record on which it was not spent. -/
def spend (a : Arc) (nonce : UInt64) : Bool × Graph α :=
  match g.record? a with
  | some r =>
    (!r.isSpent nonce,
      { g with records := g.records.insert a { r with spent := r.spent.add nonce } })
  | none => (false, g)

/-! ## Queries -/

/-- The edge of a pair if it is live. -/
def lookup (a : Arc) (now : Instant) : Option (Edge α) :=
  match g.record? a with
  | some r => if r.isLive now then some r.edge else none
  | none => none

/-- The records from a source, by target. -/
def recordsFrom (source : NodeId) : List (Record α) :=
  (g.records.entries.filter fun entry => entry.1.source = source).map (·.2)

/-- The live edges from a source, by target. -/
def outgoing (source : NodeId) (now : Instant) : List (Edge α) :=
  ((g.recordsFrom source).filter (·.isLive now)).map (·.edge)

/-- The live edges to a target, by source. -/
def incoming (target : NodeId) (now : Instant) : List (Edge α) :=
  (g.sourcesOf target).keys.filterMap fun source => g.lookup ⟨source, target⟩ now

/-- The number of records. -/
def recordCount : Nat := g.records.size

/-- The number of live edges. -/
def liveCount (now : Instant) : Nat := g.records.values.countP (·.isLive now)

end Graph

end WebOfTrust
