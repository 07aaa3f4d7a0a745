import WebOfTrust.Arith
import WebOfTrust.Clock
import WebOfTrust.Fault

/-!
# Risk edges

An edge is one node's judgement of another, from -1 (betrayal) to 1 (trust), made at some time, on
some level of trust, and good until it expires.

* `Arc`: ordered pairs of nodes, by source and then by target;
* `Edge`: `fault?`, `isExpired`;
* `Edge.levelWeight`, `Edge.recency`: how much an edge counts.
-/

namespace WebOfTrust

/-- An ordered pair of nodes. -/
structure Arc where
  source : NodeId
  target : NodeId
deriving DecidableEq

instance : Key Arc where
  rank a := a.source.toNat * UInt32.size + a.target.toNat
  rank_inj {a b} h := by
    obtain ⟨s, t⟩ := a
    obtain ⟨s', t'⟩ := b
    have ht := t.toNat_lt
    have ht' := t'.toNat_lt
    simp only [UInt32.size] at h
    have hs : s = s' := UInt32.toNat_inj.mp (by omega)
    have htt : t = t' := UInt32.toNat_inj.mp (by omega)
    rw [hs, htt]

/-- A judgement of one node by another. -/
structure Edge (α : Type) where
  source : NodeId
  target : NodeId
  /-- From -1 (betrayal) to 1 (trust). -/
  risk : α
  /-- When the edge was made. -/
  timestamp : Instant
  /-- The number that path proofs over the edge may not fall below. -/
  nonce : UInt64
  /-- The level of trust, from 0 to 3. -/
  level : UInt8
  /-- When the edge ends. -/
  expiration : Instant
deriving DecidableEq

namespace Edge

variable {α : Type} [Arith α] (e : Edge α)

/-- The pair of nodes that an edge joins. -/
def arc {α : Type} (e : Edge α) : Arc := ⟨e.source, e.target⟩

/-- The highest level of trust. -/
def maxLevel : Nat := 3

/-- The first thing wrong with the fields of an edge. -/
def fault? : Option (Fault α) :=
  if ¬ (Arith.isFinite e.risk ∧ -1 ≤ e.risk ∧ e.risk ≤ 1) then some (.invalidRisk e.risk)
  else if maxLevel < e.level.toNat then some (.invalidTrustLevel e.level)
  else if e.expiration ≤ e.timestamp then some (.invalidExpiration e.timestamp e.expiration)
  else none

/-- Whether an edge has ended. -/
def isExpired {α : Type} (e : Edge α) (now : Instant) : Bool := e.expiration ≤ now

/-- What the level of an edge counts, up to one. -/
def levelWeight : α := ((min e.level.toNat maxLevel : Nat) + 1 : α) / ((maxLevel : α) + 1)

/-- The part of an edge's life that lies ahead; before its time an edge is wholly fresh. -/
def recency (now : Instant) : α :=
  if now ≤ e.timestamp then 1
  else if e.expiration ≤ now then 0
  else
    let lifetime : α := ((e.expiration - e.timestamp).toNat : α)
    let remaining : α := ((e.expiration - now).toNat : α)
    Arith.clampUnit (remaining / lifetime)

end Edge

end WebOfTrust
