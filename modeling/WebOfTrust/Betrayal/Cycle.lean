import WebOfTrust.Graph.Reach

/-!
# Negative cycles

A cycle of live edges whose risks add up to less than zero is found by relaxing edges: every node
carries the least risk known of a walk from the source, with the node before it on that walk, and
an edge that offers its target less is taken over at once. When rounds for all nodes but one have
gone by, an edge that still offers less hangs off a cycle of predecessors.

* `Search`: distances and predecessors; `Search.relax?`, `Search.pass`, `Search.passes?`;
* `traceCycle?`: the cycle of predecessors that a node hangs off, from its least node on;
* `Cycle`: a cycle with its edges and total risk;
* `Graph.worstCycle?`: the least total among the negative cycles traced.
-/

namespace WebOfTrust

/-! ## Relaxation -/

/-- The least risks known of walks from a source, and the last nodes but one of those walks. -/
structure Search (α : Type) where
  distance : Table NodeId α
  previous : Table NodeId NodeId

namespace Search

variable {α : Type} [Arith α]

/-- By how much a walk has to be better than another to count. -/
def slack : α := Arith.ratio 1 1000000000

/-- Nothing is known but the source. -/
def start (source : NodeId) : Search α := ⟨Table.empty.insert source 0, Table.empty⟩

variable (s : Search α)

/-- The distance that an edge offers its target, if that is less than the known one. -/
def offer? (e : Edge α) : Option α :=
  match s.distance.get? e.source with
  | none => none
  | some d =>
    match s.distance.get? e.target with
    | none => some (d + e.risk)
    | some known => if d + e.risk < known - slack then some (d + e.risk) else none

/-- Take over what an edge offers. -/
def relax? (e : Edge α) : Option (Search α) :=
  match s.offer? e with
  | some d => some ⟨s.distance.insert e.target d, s.previous.insert e.target e.source⟩
  | none => none

/-- Relax each edge in turn; whether one of them offered anything. -/
def pass (s : Search α) : List (Edge α) → Search α × Bool
  | [] => (s, false)
  | e :: rest =>
    match s.relax? e with
    | some s' => ((pass s' rest).1, true)
    | none => pass s rest

/-- A number of passes, unless one of them changes nothing. -/
def passes? (edges : List (Edge α)) : Nat → Search α → Option (Search α)
  | 0, s => some s
  | n + 1, s =>
    let (s', changed) := s.pass edges
    if changed then passes? edges n s' else none

end Search

/-! ## Cycles of predecessors -/

/-- The node some steps back. -/
def stepsBack? (previous : Table NodeId NodeId) : Nat → NodeId → Option NodeId
  | 0, node => some node
  | n + 1, node =>
    match previous.get? node with
    | some before => stepsBack? previous n before
    | none => none

/-- Walk back to a node where the walk ends, and list in forward order what lies between and what
is listed already. -/
def walkBack? (previous : Table NodeId NodeId) (stop : NodeId) :
    (bound : Nat) → NodeId → List NodeId → Option (List NodeId)
  | 0, node, path => if node = stop then some path else none
  | bound + 1, node, path =>
    if node = stop then some path
    else
      match previous.get? node with
      | some before => walkBack? previous stop bound before (node :: path)
      | none => none

/-- The least of some nodes. -/
def leastNode (first : NodeId) (rest : List NodeId) : NodeId :=
  rest.foldl (fun least n => if n < least then n else least) first

/-- The nodes of a cycle from the least one on. -/
def fromLeast : List NodeId → List NodeId
  | [] => []
  | first :: rest =>
    let least := leastNode first rest
    let nodes := first :: rest
    nodes.dropWhile (· ≠ least) ++ nodes.takeWhile (· ≠ least)

/-- The cycle of predecessors that a node hangs off, among a number of nodes. As many steps back
as there are nodes lead into the cycle. -/
def traceCycle? (previous : Table NodeId NodeId) (node : NodeId) (bound : Nat) :
    Option (List NodeId) :=
  match stepsBack? previous bound node with
  | none => none
  | some stop =>
    match previous.get? stop with
    | none => none
    | some before => (walkBack? previous stop bound before [stop]).map fromLeast

/-! ## Cycles of edges -/

/-- A cycle of live edges. -/
structure Cycle (α : Type) where
  /-- The nodes in the direction of the edges, from the least one on. -/
  nodes : List NodeId
  /-- The edge that leaves each node. -/
  edges : List (Edge α)
  /-- The sum of the risks. -/
  total : α

/-- The pairs of neighbours on a cycle. -/
def cycleArcs (nodes : List NodeId) : List Arc :=
  (nodes.zip (nodes.drop 1 ++ nodes.take 1)).map fun p => ⟨p.1, p.2⟩

namespace Graph

variable {α : Type} [Arith α] (g : Graph α)

/-- The live edges of some pairs, if all have one. -/
def lookupAll {α : Type} (g : Graph α) (now : Instant) : List Arc → Option (List (Edge α))
  | [] => some []
  | a :: rest =>
    match g.lookup a now, g.lookupAll now rest with
    | some e, some edges => some (e :: edges)
    | _, _ => none

/-- The cycle through some nodes. -/
def cycle? (nodes : List NodeId) (now : Instant) : Option (Cycle α) :=
  match g.lookupAll now (cycleArcs nodes) with
  | some edges => some ⟨nodes, edges, edges.foldl (fun sum e => sum + e.risk) 0⟩
  | none => none

end Graph

/-! ## The worst cycle -/

/-- What the last pass has come upon. -/
structure Findings (α : Type) where
  search : Search α
  /-- The cycles traced so far. -/
  traced : List (List NodeId)
  /-- The negative one with the least total. -/
  worst : Option (Cycle α)

namespace Findings

variable {α : Type} [Arith α]

/-- The worse of two cycles, when the second is negative; of equals, the first. -/
def worse (worst : Option (Cycle α)) (c : Cycle α) : Option (Cycle α) :=
  if 0 ≤ c.total then worst
  else
    match worst with
    | none => some c
    | some w => if c.total < w.total then some c else some w

/-- Take a traced cycle into account, once. -/
def enter (g : Graph α) (now : Instant) (f : Findings α) (nodes : List NodeId) : Findings α :=
  if nodes ∈ f.traced then f
  else
    { f with
      traced := nodes :: f.traced
      worst :=
        match g.cycle? nodes now with
        | some c => worse f.worst c
        | none => f.worst }

/-- Relax an edge, and trace the cycle at its target if the edge offered anything. -/
def step (g : Graph α) (now : Instant) (bound : Nat) (f : Findings α) (e : Edge α) :
    Findings α :=
  match f.search.relax? e with
  | none => f
  | some s =>
    match traceCycle? s.previous e.target bound with
    | none => { f with search := s }
    | some nodes => { f with search := s }.enter g now nodes

end Findings

namespace Graph

variable {α : Type} [Arith α] (g : Graph α)

/-- The live edges that leave some nodes, by source and then by target. -/
def edgesWithin {α : Type} (g : Graph α) (nodes : KeySet NodeId) (now : Instant) :
    List (Edge α) :=
  nodes.keys.flatMap fun node => g.outgoing node now

/-- The worst negative cycle found among the nodes within reach of a source. -/
def worstCycle? (source : NodeId) (nodes : KeySet NodeId) (now : Instant) : Option (Cycle α) :=
  let edges := g.edgesWithin nodes now
  match Search.passes? edges (nodes.size - 1) (Search.start source) with
  | none => none
  | some s => (edges.foldl (Findings.step g now nodes.size) ⟨s, [], none⟩).worst

end Graph

end WebOfTrust
