import WebOfTrust.Graph

/-!
# Reach

The nodes to which a walk leads from a source: over live edges, or over all records ever made.

* `discover`: the unseen nodes of a list;
* `explore`: a search with a list of nodes that wait for their turn;
* `Graph.reachable`, `Graph.historical`: the two kinds of reach.
-/

namespace WebOfTrust

/-- Add the nodes of a list to those seen, and list the new ones. -/
def discover (seen : KeySet NodeId) : List NodeId → KeySet NodeId × List NodeId
  | [] => (seen, [])
  | n :: rest =>
    if seen.contains n then discover seen rest
    else
      let (seen', fresh) := discover (seen.add n) rest
      (seen', n :: fresh)

/-- Visit the waiting nodes and those discovered on the way, at most as many as the fuel. -/
def explore (next : NodeId → List NodeId) :
    (fuel : Nat) → (waiting : List NodeId) → KeySet NodeId → KeySet NodeId
  | 0, _, seen => seen
  | _ + 1, [], seen => seen
  | fuel + 1, node :: waiting, seen =>
    let (seen', fresh) := discover seen (next node)
    explore next fuel (waiting ++ fresh) seen'

namespace Graph

variable {α : Type} (g : Graph α)

/-- The nodes within reach of a source. Every node but the source is the target of a record, so no
more nodes are visited than there are records, and the source. -/
def reach (next : NodeId → List NodeId) (source : NodeId) : KeySet NodeId :=
  explore next (g.recordCount + 1) [source] (KeySet.add Table.empty source)

/-- The nodes to which live edges lead from a source, and the source. -/
def reachable (source : NodeId) (now : Instant) : KeySet NodeId :=
  g.reach (fun node => (g.outgoing node now).map (·.target)) source

/-- The nodes to which records lead from a source, and the source. -/
def historical (source : NodeId) : KeySet NodeId :=
  g.reach (fun node => (g.recordsFrom node).map (·.edge.target)) source

end Graph

end WebOfTrust
