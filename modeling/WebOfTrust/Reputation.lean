import WebOfTrust.Config
import WebOfTrust.Graph
import WebOfTrust.Registry

/-!
# Reputation

The reputation of a node is one half plus half the weighted mean of the risks on its live incoming
edges, where a neutral observation of some weight takes part in the mean. It goes from 0 to 1, and
a node without live incoming edges has one half.

* `Tally`: the sums over the incoming edges;
* `Graph.reputation`: the reputation of a node;
* `Graph.trustScore`: the score of an identity.
-/

namespace WebOfTrust

/-- What the incoming edges of a node add up to. -/
structure Tally (α : Type) where
  edges : Nat
  weightedRisk : α
  weight : α

namespace Tally

variable {α : Type} [Arith α]

/-- The tally of no edges. -/
def zero : Tally α := ⟨0, 0, 0⟩

/-- Count an edge, by its level and what is left of its life. -/
def add (now : Instant) (t : Tally α) (e : Edge α) : Tally α :=
  let weight := e.levelWeight * e.recency now
  ⟨t.edges + 1, t.weightedRisk + weight * e.risk, t.weight + weight⟩

end Tally

/-- The reputation of a node. -/
structure Reputation (α : Type) where
  node : NodeId
  /-- From 0 to 1, one half being neutral. -/
  score : α
  /-- The number of live incoming edges. -/
  liveIncoming : Nat
  /-- The weight of those edges. -/
  evidenceWeight : α

namespace Graph

variable {α : Type} [Arith α] (g : Graph α) (settings : ReputationSettings α)

/-- The tally of a node's live incoming edges. -/
def tally (node : NodeId) (now : Instant) : Tally α :=
  (g.incoming node now).foldl (Tally.add now) Tally.zero

/-- The reputation of a node. -/
def reputation (node : NodeId) (now : Instant) : Reputation α :=
  let t := g.tally node now
  let score :=
    if t.edges = 0 then Arith.half
    else
      let mean := t.weightedRisk / (settings.priorWeight + t.weight)
      Arith.clampUnit ((1 + mean) / (2 : Nat))
  ⟨node, score, t.edges, t.weight⟩

/-- The score of an identity: the reputation of its node, or one half if it has none. -/
def scoreOf (registry : Registry) (i : Identity) (now : Instant) : α :=
  match registry.lookup i with
  | some node => (g.reputation settings node now).score
  | none => Arith.half

end Graph

end WebOfTrust
