import WebOfTrust.Belief
import WebOfTrust.Betrayal.Anomaly
import WebOfTrust.Betrayal.Cycle
import WebOfTrust.Config

/-!
# Detection of betrayal

From a source three checks are made, and the first that finds anything is reported: a negative
cycle within reach, a reach that has shrunk too far from what it once was, and beliefs that
diverge. Nodes out of reach take no part.

* `cycleScore`: the score of a negative cycle;
* `Graph.coverage`: the part of the once reachable peers that is still reachable;
* `Graph.detect`: the finding.
-/

namespace WebOfTrust

/-- The score of a negative cycle by its magnitude: up to the critical score in proportion, and
from there to one at twice the critical magnitude. -/
def cycleScore {α : Type} [Arith α] (magnitude critical : α) : α :=
  let top : α := Anomaly.criticalScore
  Arith.clampUnit <|
    if critical ≤ magnitude then
      top + (1 - top) * Arith.atMostOne ((magnitude - critical) / critical)
    else top * magnitude / critical

namespace Graph

variable {α : Type} [Arith α] (g : Graph α)

/-- The part of a source's peers, by all records, that is among some nodes; one without peers. -/
def coverageWithin (source : NodeId) (nodes : KeySet NodeId) : α :=
  let expected := g.historical source
  let expectedPeers := (expected.keys.filter (· ≠ source)).length
  if expectedPeers = 0 then 1
  else
    let livePeers := (nodes.keys.filter fun n => n ≠ source ∧ expected.contains n).length
    (livePeers : α) / (expectedPeers : α)

/-- The part of a source's peers, by all records, that live edges reach. -/
def coverage (source : NodeId) (now : Instant) : α :=
  g.coverageWithin source (g.reachable source now)

end Graph

/-- The finding about a negative cycle: it names the source if that lies on the cycle. -/
def Cycle.anomaly {α : Type} [Arith α] (settings : BetrayalSettings α) (source : NodeId)
    (c : Cycle α) : Anomaly α :=
  { node := if source ∈ c.nodes then source else c.nodes.headD source
    score := cycleScore (Arith.magnitude c.total) settings.criticalMagnitude
    reason := .negativeCycle }

/-- The finding about a run of belief propagation. -/
def BeliefOutcome.anomaly {α : Type} [Arith α] [Logarithm α] (settings : BetrayalSettings α)
    (source : NodeId) : BeliefOutcome α → Anomaly α
  | .converged _ _ => .clean source
  | .settling _ _ _ => .clean source
  | .diverged node first last _ =>
    ⟨node, divergenceScore first last settings.tolerance, .divergence⟩

namespace Graph

variable {α : Type} [Arith α] [Logarithm α] (g : Graph α) (settings : BetrayalSettings α)

/-- The finding from a source. -/
def detect (source : NodeId) (now : Instant) : Anomaly α :=
  let nodes := g.reachable source now
  match g.worstCycle? source nodes now with
  | some c => c.anomaly settings source
  | none =>
    let coverage := g.coverageWithin source nodes
    if coverage < settings.minCoverage then
      ⟨source, Arith.clampUnit (1 - coverage), .lowCoverage⟩
    else
      (g.propagate source nodes now settings.maxRounds settings.tolerance).anomaly settings source

end Graph

end WebOfTrust
