import WebOfTrust.Context

/-!
# Runs of a context

Everything that can be asked of a context as data, so that a history is a list.

* `Operation`, `Reply`: what is asked and what is answered;
* `Context.step`: one operation;
* `Context.run`: the answers to a history, and the context after it.
-/

namespace WebOfTrust

/-- What can be asked of a context. -/
inductive Operation (α : Type) where
  | register (bytes : Bytes)
  | registerIdentity (i : Identity)
  | lookup (bytes : Bytes)
  | identityOf (node : NodeId)
  | add (e : Edge α)
  | revoke (a : Arc)
  | lookupEdge (a : Arc)
  | record (a : Arc)
  | outgoing (node : NodeId)
  | incoming (node : NodeId)
  | recordsFrom (node : NodeId)
  | reachable (node : NodeId)
  | historical (node : NodeId)
  | coverage (node : NodeId)
  /-- A run of belief propagation, among given nodes or those within reach. -/
  | propagate (source : NodeId) (bound : Nat) (tolerance : α) (nodes : Option (KeySet NodeId))
  | reputation (node : NodeId)
  | trustScore (bytes : Bytes)
  | detect (node : NodeId)
  | evidence (node : NodeId)
  | slash (target : Bytes) (reason : UInt8) (evidence : Octets 32)
  | verify (proof : Bytes) (sender receiver : Identity)
  | evaluate (proof : Bytes) (sender receiver : Identity)
  | advance (t : Instant)
  /-- The wall clock shows a time. -/
  | tick (reading : Instant)

/-- What a context answers. -/
inductive Reply (α : Type) where
  | done
  | node (n : NodeId)
  | node? (n : Option NodeId)
  | identity? (i : Option Identity)
  | edge (e : Edge α)
  | edge? (e : Option (Edge α))
  | record? (r : Option (Record α))
  | edges (es : List (Edge α))
  | nodes (ns : KeySet NodeId)
  | value (x : α)
  | beliefs (o : BeliefOutcome α)
  | reputation (r : Reputation α)
  | anomaly (a : Anomaly α)
  | evidence (e : Evidence α)
  | signal (s : SlashSignal)
  | verdict (v : Verdict)
  | time (t : Instant)

namespace Context

variable {α : Type} [Arith α] [Logarithm α]

/-- The answer to an operation, and the context after it. -/
def step (c : Context α) : Operation α → Except (Fault α) (Reply α) × Context α
  | .register bytes => let (r, c') := c.register bytes; (r.map .node, c')
  | .registerIdentity i => let (r, c') := c.registerIdentity i; (r.map .node, c')
  | .lookup bytes => ((c.registry.lookupBytes bytes).map .node?, c)
  | .identityOf node => (.ok (.identity? (c.registry.identityOf node)), c)
  | .add e => let (r, c') := c.addEdge e; (r.map fun _ => .done, c')
  | .revoke a => let (r, c') := c.revokeEdge a; (r.map .edge, c')
  | .lookupEdge a => (.ok (.edge? (c.lookupEdge a)), c)
  | .record a => (.ok (.record? (c.graph.record? a)), c)
  | .outgoing node => (.ok (.edges (c.graph.outgoing node c.now)), c)
  | .incoming node => (.ok (.edges (c.graph.incoming node c.now)), c)
  | .recordsFrom node => (.ok (.edges ((c.graph.recordsFrom node).map (·.edge))), c)
  | .reachable node => (.ok (.nodes (c.graph.reachable node c.now)), c)
  | .historical node => (.ok (.nodes (c.graph.historical node)), c)
  | .coverage node => (.ok (.value (c.graph.coverage node c.now)), c)
  | .propagate source bound tolerance nodes =>
    let nodes := nodes.getD (c.graph.reachable source c.now)
    (.ok (.beliefs (c.graph.propagate source nodes c.now bound tolerance)), c)
  | .reputation node => (.ok (.reputation (c.reputation node)), c)
  | .trustScore bytes => ((c.trustScore bytes).map .value, c)
  | .detect node => (.ok (.anomaly (c.detect node)), c)
  | .evidence node => ((c.evidence node).map .evidence, c)
  | .slash target reason evidence =>
    let (r, c') := c.slash target reason evidence; (r.map .signal, c')
  | .verify proof sender receiver =>
    let (v, c') := c.verify proof sender receiver; (.ok (.verdict v), c')
  | .evaluate proof sender receiver => (.ok (.verdict (c.evaluate proof sender receiver)), c)
  | .advance t => let (t', c') := c.advance t; (.ok (.time t'), c')
  | .tick reading => (.ok .done, { c with clock := c.clock.refresh reading })

/-- The answers to a history, and the context after it. -/
def run (c : Context α) : List (Operation α) → List (Except (Fault α) (Reply α)) × Context α
  | [] => ([], c)
  | op :: rest =>
    let (reply, c') := c.step op
    let (replies, c'') := run c' rest
    (reply :: replies, c'')

end Context

end WebOfTrust
