import WebOfTrust.Graph.Reach

/-!
# Belief propagation

Every node within reach of a source has a belief from 0 to 1 that it can be trusted: the source
has 1, and the others begin with one half. In each round the belief of a node becomes the mean,
weighted by level, of what the live edges into it say: an edge says what its risk says if its
source is trusted, and the opposite if it is distrusted. The rounds end when all beliefs have
settled. A bound on their number may end them earlier; then beliefs that reversed their direction
late in the run have diverged.

* `Message`, `Inbox`: what is said of a node; `Inbox.mean?`: what the node should then believe;
* `Propagation`: what is remembered between rounds; `Propagation.round`: one round;
* `BeliefOutcome`: how a run may end;
* `Graph.propagate`: a run;
* `divergenceScore`: how far a run was from settling.
-/

namespace WebOfTrust

/-- The belief in each node. -/
abbrev Beliefs (α : Type) : Type := Table NodeId α

/-- What an edge says of its target. -/
structure Message (α : Type) where
  source : NodeId
  /-- The belief in the target that a trusted source would have. -/
  truth : α
  weight : α

/-- All that is said of a node. -/
structure Inbox (α : Type) where
  node : NodeId
  messages : List (Message α)

/-- A new belief in a node. -/
structure Move (α : Type) where
  node : NodeId
  belief : α
  /-- The new belief less the last one. -/
  change : α

section Round

variable {α : Type} [Arith α]

/-- What a live edge says of its target. -/
def Message.ofEdge (e : Edge α) : Message α :=
  ⟨e.source, (1 + e.risk) / (2 : Nat), e.levelWeight⟩

/-- What a message comes to when its source is believed in so far. -/
def Message.opinion (beliefs : Beliefs α) (m : Message α) : α :=
  let b := (beliefs.get? m.source).getD Arith.half
  b * m.truth + (1 - b) * (1 - m.truth)

/-- The mean of the messages about a node, if they have any weight. -/
def Inbox.mean? (beliefs : Beliefs α) (inbox : Inbox α) : Option α :=
  let sums := inbox.messages.foldl
    (fun (sums : α × α) m => (sums.1 + m.weight * m.opinion beliefs, sums.2 + m.weight)) (0, 0)
  if sums.2 ≤ 0 then none else some (sums.1 / sums.2)

/-- The new belief in a node. -/
def Inbox.move? (beliefs : Beliefs α) (inbox : Inbox α) : Option (Move α) :=
  match inbox.mean? beliefs with
  | some x => some ⟨inbox.node, x, x - (beliefs.get? inbox.node).getD Arith.half⟩
  | none => none

/-- The largest move of a round, and the first node that makes it; a node is given for the case
that no belief moves. -/
def largestMove (still : NodeId) (moves : List (Move α)) : α × NodeId :=
  moves.foldl
    (fun (largest : α × NodeId) m =>
      if largest.1 < Arith.magnitude m.change then (Arith.magnitude m.change, m.node) else largest)
    (0, still)

end Round

/-- What is remembered between the rounds. -/
structure Propagation (α : Type) where
  beliefs : Beliefs α
  /-- For each node, whether its last move above the tolerance went down. -/
  falling : Table NodeId Bool
  /-- Whether a node has reversed its direction late. -/
  reversed : Bool
  /-- The largest move of the last round. -/
  residual : α
  /-- The node that made the last largest move. -/
  worst : NodeId

/-- How a run may end. -/
inductive BeliefOutcome (α : Type) where
  /-- No belief moved by more than the tolerance. -/
  | converged (rounds : Nat) (beliefs : Beliefs α)
  /-- The bound was reached with no belief reversing its direction late. -/
  | settling (rounds : Nat) (residual : α) (beliefs : Beliefs α)
  /-- The bound was reached while beliefs reversed their direction. -/
  | diverged (node : NodeId) (first last : α) (rounds : Nat)

namespace Propagation

variable {α : Type} [Arith α]

/-- The beliefs before the first round. -/
def initialBeliefs (source : NodeId) (nodes : KeySet NodeId) : Beliefs α :=
  nodes.keys.foldl (fun b node => b.insert node (if node = source then 1 else Arith.half))
    Table.empty

/-- Nothing has moved yet. -/
def start (source : NodeId) (nodes : KeySet NodeId) : Propagation α :=
  ⟨initialBeliefs source nodes, Table.empty, false, 0, source⟩

/-- Note the direction of a move above the tolerance. -/
def turn (tolerance : α) (late : Bool) (p : Propagation α) (m : Move α) : Propagation α :=
  if tolerance < Arith.magnitude m.change then
    let down : Bool := m.change < 0
    let turned :=
      match p.falling.get? m.node with
      | some before => before != down
      | none => false
    { p with
      falling := p.falling.insert m.node down
      reversed := p.reversed || (turned && late) }
  else p

/-- One round: all nodes move at the same time. -/
def round (tolerance : α) (late : Bool) (inboxes : List (Inbox α)) (p : Propagation α) :
    Propagation α :=
  let moves := inboxes.filterMap (·.move? p.beliefs)
  let (residual, worst) := largestMove p.worst moves
  { moves.foldl (turn tolerance late) p with
    beliefs := moves.foldl (fun b m => b.insert m.node m.belief) p.beliefs
    residual := residual
    worst := worst }

/-- The rounds that are left. The first round's residual is known from the second round on. -/
def rounds (inboxes : List (Inbox α)) (bound : Nat) (tolerance : α) :
    (left : Nat) → (first : Option α) → Propagation α → BeliefOutcome α
  | 0, first, p =>
    if p.reversed then .diverged p.worst (first.getD p.residual) p.residual bound
    else .settling bound p.residual p.beliefs
  | left + 1, first, p =>
    let p := p.round tolerance (bound / 2 < bound - left) inboxes
    if p.residual ≤ tolerance then .converged (bound - left) p.beliefs
    else rounds inboxes bound tolerance left (some (first.getD p.residual)) p

end Propagation

namespace Graph

variable {α : Type} [Arith α] (g : Graph α)

/-- What is said of the nodes other than the source by live edges from among the nodes. -/
def inboxes (source : NodeId) (nodes : KeySet NodeId) (now : Instant) : List (Inbox α) :=
  (nodes.keys.filter (· ≠ source)).map fun node =>
    ⟨node, ((g.incoming node now).filter (nodes.contains ·.source)).map Message.ofEdge⟩

/-- A run of belief propagation among some nodes. -/
def propagate (source : NodeId) (nodes : KeySet NodeId) (now : Instant) (bound : Nat)
    (tolerance : α) : BeliefOutcome α :=
  Propagation.rounds (g.inboxes source nodes now) bound tolerance bound none
    (Propagation.start source nodes)

end Graph

/-- How far a run that diverged was from settling, on a logarithmic scale: 1 if it came no nearer
at all, and 0 at the tolerance. -/
def divergenceScore {α : Type} [Arith α] [Logarithm α] (first last tolerance : α) : α :=
  if last ≤ tolerance then 0
  else
    let span := Logarithm.ln (first / tolerance)
    if span ≤ 0 ∨ first ≤ last then 1
    else Arith.clampUnit (Logarithm.ln (last / tolerance) / span)

end WebOfTrust
