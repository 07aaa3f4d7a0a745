import WebOfTrust.Boundary.Host
import WebOfTrust.Config.Reader

/-!
# Calls over the boundary

The calls that a caller from outside can make, with the buffers it passes. A pointer may be null;
an output buffer has its contents before the call in the call and those after it in the answer, so
that what is not written shows. Faults do not cross the boundary: every call has a value of its own
that stands for failure.

* `Call`, `Answer`: a call with its buffers, and what comes back;
* `overwrite`: bytes put at the front of a buffer;
* `Host.call`: a call;
* `Host.calls`: a history of calls.
-/

namespace WebOfTrust

/-- A call over the boundary. -/
inductive Call (α : Type) where
  /-- Ask for a context with the settings of a text, if there is one. -/
  | init (text : Option String) (reading : Instant)
  | deinit (handle : Handle)
  | advance (handle : Handle) (t : Instant)
  | addEdge (handle : Handle) (e : Option (Edge α))
  | revokeEdge (handle : Handle) (a : Arc)
  | register (handle : Handle) (i : Option Identity) (out : Option NodeId)
  | identityOf (handle : Handle) (node : NodeId) (out : Option Bytes)
  | trustScore (handle : Handle) (bytes : Option Bytes)
  | reputation (handle : Handle) (node : NodeId)
  | detect (handle : Handle) (node : NodeId)
  | evidence (handle : Handle) (node : NodeId) (out : Option Bytes)
  | slash (handle : Handle) (target : Option Identity) (reason : UInt8)
      (evidence : Option (Octets 32)) (out : Option Bytes)
  | verify (handle : Handle) (proof : Option Bytes) (sender receiver : Option Identity)

/-- What comes back from a call. -/
inductive Answer (α : Type) where
  | nothing
  | handle (h : Handle)
  /-- A return code. -/
  | code (n : Int)
  | node (ok : Bool) (out : Option NodeId)
  | identity (ok : Bool) (out : Option Bytes)
  | score (x : α)
  | anomaly (a : Anomaly α)
  /-- The length of the evidence, and the buffer it may have been written to. -/
  | evidence (length : Nat) (out : Option Bytes)
  | signal (code : Int) (out : Option Bytes)
  | verdict (v : Verdict)

/-- Put bytes at the front of a buffer. -/
def overwrite (buffer bytes : Bytes) : Bytes := bytes ++ buffer.drop bytes.length

namespace Host

variable {α : Type} [Arith α] [Logarithm α] (h : Host α)

/-- Add an edge: 0, or -1. -/
def addEdge (handle : Handle) : Option (Edge α) → Answer α × Host α
  | none => (.code (-1), h)
  | some e =>
    h.serve handle (.code (-1)) fun c =>
      match c.addEdge e with
      | (.ok (), c') => (.code 0, c')
      | (.error _, c') => (.code (-1), c')

/-- Revoke an edge: 0, or -2. -/
def revokeEdge {α : Type} (h : Host α) (handle : Handle) (a : Arc) : Answer α × Host α :=
  h.serve handle (.code (-2)) fun c =>
    match c.revokeEdge a with
    | (.ok _, c') => (.code 0, c')
    | (.error _, c') => (.code (-2), c')

/-- Register an identity: true with its node written, or false. -/
def register {α : Type} (h : Host α) (handle : Handle) (i : Option Identity)
    (out : Option NodeId) : Answer α × Host α :=
  match i, out with
  | some i, some before =>
    h.serve handle (.node false out) fun c =>
      match c.register i.bytes with
      | (.ok node, c') => (.node true (some node), c')
      | (.error _, c') => (.node false (some before), c')
  | _, _ => (.node false out, h)

/-- The identity of a node: true with its bytes written, or false. -/
def identityOf {α : Type} (h : Host α) (handle : Handle) (node : NodeId) (out : Option Bytes) :
    Answer α × Host α :=
  match out with
  | none => (.identity false none, h)
  | some buffer =>
    h.serve handle (.identity false out) fun c =>
      match c.registry.identityOf node with
      | some i => (.identity true (some (overwrite buffer i.bytes)), c)
      | none => (.identity false out, c)

/-- The score of an identity, or -1. -/
def trustScore (handle : Handle) : Option Bytes → Answer α × Host α
  | none => (.score (-1), h)
  | some bytes =>
    h.serve handle (.score (-1)) fun c =>
      match c.trustScore bytes with
      | .ok x => (.score x, c)
      | .error _ => (.score (-1), c)

/-- The length of the evidence from a node, or 0. The evidence is written if the buffer holds it. -/
def evidence [WordForm α] (handle : Handle) (node : NodeId) (out : Option Bytes) :
    Answer α × Host α :=
  h.serve handle (.evidence 0 out) fun c =>
    match c.evidence node with
    | .error _ => (.evidence 0 out, c)
    | .ok e =>
      match e.encode with
      | .error _ => (.evidence 0 out, c)
      | .ok bytes =>
        let written := out.map fun buffer =>
          if bytes.length ≤ buffer.length then overwrite buffer bytes else buffer
        (.evidence bytes.length written, c)

/-- Issue a slash signal: 0 with its bytes written, or -1. -/
def slash (handle : Handle) (target : Option Identity) (reason : UInt8)
    (evidence : Option (Octets 32)) (out : Option Bytes) : Answer α × Host α :=
  match target, evidence, out with
  | some target, some evidence, some buffer =>
    h.serve handle (.signal (-1) out) fun c =>
      match c.slash target.bytes reason evidence with
      | (.ok signal, c') => (.signal 0 (some (overwrite buffer signal.encode)), c')
      | (.error _, c') => (.signal (-1) out, c')
  | _, _, _ => (.signal (-1) out, h)

/-- The verdict on a proof; invalid endpoints stand for failure. -/
def verify {α : Type} (h : Host α) (handle : Handle) (proof : Option Bytes)
    (sender receiver : Option Identity) : Answer α × Host α :=
  match proof, sender, receiver with
  | some proof, some sender, some receiver =>
    h.serve handle (.verdict .invalidEndpoints) fun c =>
      let (v, c') := c.verify proof sender receiver
      (.verdict v, c')
  | _, _, _ => (.verdict .invalidEndpoints, h)

/-- A new context with the settings of a text, or with the default ones if there is none or it
cannot be used. -/
def init [Literal α] (text : Option String) (reading : Instant) : Answer α × Host α :=
  let c :=
    match Context.create? h.prefer (Config.readOrDefault text) reading with
    | .ok c => c
    | .error _ => Context.ofConfig h.prefer Config.default reading
  let (handle, h') := h.lend c
  (.handle handle, h')

/-- A call over the boundary. -/
def call [WordForm α] [Literal α] : Call α → Answer α × Host α
  | .init text reading => h.init text reading
  | .deinit handle => (.nothing, h.release handle)
  | .advance handle t =>
    h.serve handle (.code (-1)) fun c => (.code 0, (c.advance t).2)
  | .addEdge handle e => h.addEdge handle e
  | .revokeEdge handle a => h.revokeEdge handle a
  | .register handle i out => h.register handle i out
  | .identityOf handle node out => h.identityOf handle node out
  | .trustScore handle bytes => h.trustScore handle bytes
  | .reputation handle node =>
    h.serve handle (.score (-1)) fun c => (.score (c.reputation node).score, c)
  | .detect handle node =>
    h.serve handle (.anomaly (.clean node)) fun c => (.anomaly (c.detect node), c)
  | .evidence handle node out => h.evidence handle node out
  | .slash handle target reason evidence out => h.slash handle target reason evidence out
  | .verify handle proof sender receiver => h.verify handle proof sender receiver

/-- The answers to a history of calls, and the host after it. Every call comes with what the wall
clock shows at its time. -/
def calls [WordForm α] [Literal α] (h : Host α) : List (Instant × Call α) → List (Answer α) × Host α
  | [] => ([], h)
  | (reading, call) :: rest =>
    let (answer, h') := (h.refresh reading).call call
    let (answers, h'') := calls h' rest
    (answer :: answers, h'')

end Host

end WebOfTrust
