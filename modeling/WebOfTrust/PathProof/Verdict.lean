import WebOfTrust.Graph
import WebOfTrust.PathProof.Wire
import WebOfTrust.Registry

/-!
# Verdicts on path proofs

A path proof is valid when it names the sender and the receiver, its hops join and lead from the
one's node to the other's, every hop has a live edge, and every nonce is fresh: no lower than the
edge's own, not spent on the pair before, and not repeated in the proof. The tests are made in
this order, each on the whole path, and the first that fails gives the verdict. Verification spends
the nonces of a valid proof; evaluation leaves them.

* `Verdict`: `code`, `isValid`;
* `Graph.check`: the tests;
* `Graph.evaluate`, `Graph.verify`: the verdict, without and with the nonces spent.
-/

namespace WebOfTrust

/-- What becomes of a path proof. -/
inductive Verdict where
  | valid
  | invalidEndpoints
  | brokenLink
  | revoked
  | replay
deriving DecidableEq

namespace Verdict

/-- The number of a verdict. -/
def code : Verdict → UInt8
  | valid => 0
  | invalidEndpoints => 1
  | brokenLink => 2
  | revoked => 3
  | replay => 4

/-- Whether the proof is accepted. -/
def isValid (v : Verdict) : Bool := v = valid

end Verdict

/-- The pair of nodes that a hop leads along. -/
def Hop.arc (h : Hop) : Arc := ⟨h.source, h.target⟩

namespace PathProof

/-- Whether every hop begins where the one before it ends. -/
def joined : List Hop → Bool
  | [] => true
  | [_] => true
  | h :: k :: rest => h.target = k.source && joined (k :: rest)

/-- Whether a proof names two agents and leads from the node of one to the node of the other. -/
def connects (registry : Registry) (sender receiver : Identity) (p : PathProof) : Bool :=
  p.sender = sender && p.receiver = receiver &&
    match registry.lookup sender, registry.lookup receiver with
    | some s, some r =>
      (p.hops.head?.map (·.source) = some s) && (p.hops.getLast?.map (·.target) = some r)
    | _, _ => false

/-- Whether all nonces are fresh, given the hops that have gone before. -/
def fresh {α : Type} (before : List Hop) : List (Hop × Record α) → Bool
  | [] => true
  | (h, r) :: rest =>
    r.edge.nonce ≤ h.nonce && !r.isSpent h.nonce && h ∉ before && fresh (h :: before) rest

end PathProof

namespace Graph

variable {α : Type} (g : Graph α)

/-- The records along some hops, if every hop has one. -/
def recordsAlong : List Hop → Option (List (Record α))
  | [] => some []
  | h :: rest =>
    match g.record? h.arc, recordsAlong rest with
    | some r, some records => some (r :: records)
    | _, _ => none

/-- Spend the nonces of some hops. -/
def spendAll (hops : List Hop) : Graph α := hops.foldl (fun g h => (g.spend h.arc h.nonce).2) g

variable (registry : Registry) (maxHops : Nat) (bytes : Bytes) (sender receiver : Identity)
  (now : Instant)

/-- The proof if it is valid, and the verdict if it is not. -/
def check : Except Verdict PathProof :=
  match PathProof.decode maxHops bytes with
  | .error _ => .error .invalidEndpoints
  | .ok p =>
    if ¬ p.connects registry sender receiver then .error .invalidEndpoints
    else if ¬ PathProof.joined p.hops then .error .brokenLink
    else
      match g.recordsAlong p.hops with
      | none => .error .brokenLink
      | some records =>
        if records.any (!·.isLive now) then .error .revoked
        else if ¬ PathProof.fresh [] (p.hops.zip records) then .error .replay
        else .ok p

/-- The verdict on a proof. -/
def evaluate : Verdict :=
  match g.check registry maxHops bytes sender receiver now with
  | .ok _ => .valid
  | .error v => v

/-- The verdict on a proof, whose nonces are spent if it is valid. -/
def verify : Verdict × Graph α :=
  match g.check registry maxHops bytes sender receiver now with
  | .ok p => (.valid, g.spendAll p.hops)
  | .error v => (v, g)

end Graph

end WebOfTrust
