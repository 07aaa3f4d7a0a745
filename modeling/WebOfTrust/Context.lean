import WebOfTrust.Betrayal.Detect
import WebOfTrust.Betrayal.Evidence
import WebOfTrust.PathProof.Verdict
import WebOfTrust.Reputation
import WebOfTrust.Slash

/-!
# Contexts

A context holds a registry, a graph, a clock, the settings, and the nonce of the next slash signal.
Everything that is asked of it is judged at the time of its clock. A request that fails leaves it as
it was. Which node an identity prefers is up to whoever makes the context.

* `Context`: `create?`, `ofConfig`;
* requests that may change it: `register`, `addEdge`, `revokeEdge`, `verify`, `slash`, `advance`;
* requests that only read it: `lookupEdge`, `reputation`, `trustScore`, `detect`, `evidence`,
  `evaluate`.
-/

namespace WebOfTrust

/-- The state of one web of trust. -/
structure Context (α : Type) where
  /-- The node that an identity asks for. -/
  prefer : Identity → NodeId
  config : Config α
  registry : Registry
  graph : Graph α
  clock : Clock
  /-- The nonce of the next slash signal. -/
  slashNonce : UInt64

namespace Context

variable {α : Type} [Arith α]

/-- A new context; the reading is for a system clock. -/
def ofConfig {α : Type} (prefer : Identity → NodeId) (config : Config α) (reading : Instant) :
    Context α :=
  ⟨prefer, config, Registry.empty, Graph.empty, Clock.start config.clock reading, 0⟩

/-- A new context, if the settings can be used. -/
def create? (prefer : Identity → NodeId) (config : Config α) (reading : Instant) :
    Except (Config.Flaw α) (Context α) :=
  match config.flaw? with
  | some flaw => .error flaw
  | none => .ok (ofConfig prefer config reading)

variable (c : Context α)

/-- The time of the clock. -/
def now {α : Type} (c : Context α) : Instant := c.clock.now

/-! ## Identities -/

/-- The node of an identity given by its bytes, assigned on first sight. -/
def register {α : Type} (c : Context α) (bytes : Bytes) :
    Except (Fault α) NodeId × Context α :=
  let (answer, registry) := c.registry.resolveBytes c.prefer bytes
  (answer, { c with registry })

/-- The node of an identity, assigned on first sight. -/
def registerIdentity {α : Type} (c : Context α) (i : Identity) :
    Except (Fault α) NodeId × Context α :=
  let (answer, registry) := c.registry.resolve c.prefer i
  (answer, { c with registry })

/-! ## Edges -/

/-- Put an edge, and tell the clock of its time. -/
def addEdge (e : Edge α) : Except (Fault α) Unit × Context α :=
  match c.graph.add e with
  | (.ok (), graph) => (.ok (), { c with graph, clock := c.clock.observe e.timestamp })
  | (.error f, graph) => (.error f, { c with graph })

/-- Revoke the live edge of a pair. -/
def revokeEdge {α : Type} (c : Context α) (a : Arc) : Except (Fault α) (Edge α) × Context α :=
  let (answer, graph) := c.graph.revoke a c.now
  (answer, { c with graph })

/-- The live edge of a pair. -/
def lookupEdge {α : Type} (c : Context α) (a : Arc) : Option (Edge α) := c.graph.lookup a c.now

/-! ## Scores -/

/-- The reputation of a node. -/
def reputation (node : NodeId) : Reputation α :=
  c.graph.reputation c.config.reputation node c.now

/-- The score of an identity given by its bytes. -/
def trustScore (bytes : Bytes) : Except (Fault α) α :=
  match Identity.ofBytes? bytes with
  | some i => .ok (c.graph.scoreOf c.config.reputation c.registry i c.now)
  | none => .error (.malformedIdentity bytes.length)

/-! ## Betrayal -/

/-- The evidence from a node. -/
def evidence (node : NodeId) : Except (Fault α) (Evidence α) :=
  match c.graph.evidence? node c.now with
  | some e => .ok e
  | none => .error (.noEvidence node)

/-- The finding from a node. -/
def detect [Logarithm α] (node : NodeId) : Anomaly α :=
  c.graph.detect c.config.betrayal node c.now

/-- How bad the finding about an identity is; nothing is found about an unknown one. -/
def severityOf [Logarithm α] (target : Identity) : UInt8 :=
  match c.registry.lookup target with
  | some node => severity (c.detect node).score
  | none => 0

/-- A slash signal against an identity given by its bytes. -/
def slash [Logarithm α] (target : Bytes) (reason : UInt8) (evidence : Octets 32) :
    Except (Fault α) SlashSignal × Context α :=
  match Identity.ofBytes? target with
  | none => (.error (.malformedIdentity target.length), c)
  | some i =>
    match SlashSignal.reasonOf reason with
    | .error f => (.error f, c)
    | .ok reason =>
      match SlashSignal.make i reason evidence c.now (c.severityOf i) c.slashNonce with
      | .error f => (.error f, c)
      | .ok signal => (.ok signal, { c with slashNonce := c.slashNonce + 1 })

/-! ## Path proofs -/

/-- The verdict on a proof. -/
def evaluate {α : Type} (c : Context α) (bytes : Bytes) (sender receiver : Identity) : Verdict :=
  c.graph.evaluate c.registry c.config.proof.maxHops.toNat bytes sender receiver c.now

/-- The verdict on a proof, whose nonces are spent if it is valid. -/
def verify {α : Type} (c : Context α) (bytes : Bytes) (sender receiver : Identity) :
    Verdict × Context α :=
  let (verdict, graph) :=
    c.graph.verify c.registry c.config.proof.maxHops.toNat bytes sender receiver c.now
  (verdict, { c with graph })

/-! ## Time -/

/-- Tell the clock of a time, and read it. -/
def advance {α : Type} (c : Context α) (t : Instant) : Instant × Context α :=
  let clock := c.clock.observe t
  (clock.now, { c with clock })

end Context

end WebOfTrust
