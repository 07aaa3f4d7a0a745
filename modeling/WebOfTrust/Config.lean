import WebOfTrust.Arith
import WebOfTrust.Clock
import WebOfTrust.Decimal.Shortest

/-!
# Configuration

The numbers that scoring, detection and verification depend on, and what they must satisfy.

* `Config`: the settings, in four groups; `Config.default`;
* `Config.flaw?`: the first setting that cannot be used;
* `Config.Flaw.describe`: the text of a flaw.
-/

namespace WebOfTrust

/-- The settings of reputation. -/
structure ReputationSettings (α : Type) where
  /-- The weight of a neutral observation that enters every score. -/
  priorWeight : α
deriving DecidableEq

/-- The settings of detection. -/
structure BetrayalSettings (α : Type) where
  /-- The magnitude of risk from which on a negative cycle is critical. -/
  criticalMagnitude : α
  /-- The coverage below which a finding is made. -/
  minCoverage : α
  /-- The bound on the rounds of belief propagation. -/
  maxRounds : Nat
  /-- The largest move of a belief that counts as settled. -/
  tolerance : α
deriving DecidableEq

/-- The settings of path proofs. -/
structure ProofSettings where
  /-- The longest path that a proof may claim. -/
  maxHops : UInt16
deriving DecidableEq

/-- All settings of a context. -/
structure Config (α : Type) where
  reputation : ReputationSettings α
  betrayal : BetrayalSettings α
  proof : ProofSettings
  clock : Clock.Mode
deriving DecidableEq

namespace Config

variable {α : Type} [Arith α]

/-- The settings in the absence of others. -/
def default : Config α where
  reputation := { priorWeight := Arith.half }
  betrayal :=
    { criticalMagnitude := 1
      minCoverage := Arith.half
      maxRounds := 50
      tolerance := Arith.ratio 1 1000000 }
  proof := { maxHops := 64 }
  clock := .logical

/-- A setting that cannot be used. -/
inductive Flaw (α : Type) where
  | priorWeight (got : α)
  | criticalMagnitude (got : α)
  | minCoverage (got : α)
  | maxRounds
  | tolerance (got : α)
  | maxHops
deriving DecidableEq

/-- The first setting that cannot be used. -/
def flaw? (c : Config α) : Option (Flaw α) :=
  let b := c.betrayal
  if ¬ (Arith.isFinite c.reputation.priorWeight ∧ 0 < c.reputation.priorWeight) then
    some (.priorWeight c.reputation.priorWeight)
  else if ¬ (Arith.isFinite b.criticalMagnitude ∧ 0 < b.criticalMagnitude) then
    some (.criticalMagnitude b.criticalMagnitude)
  else if ¬ (0 ≤ b.minCoverage ∧ b.minCoverage ≤ 1) then some (.minCoverage b.minCoverage)
  else if b.maxRounds = 0 then some .maxRounds
  else if ¬ (Arith.isFinite b.tolerance ∧ 0 < b.tolerance ∧ b.tolerance < 1) then
    some (.tolerance b.tolerance)
  else if c.proof.maxHops = 0 then some .maxHops
  else none

/-- The text of a flaw. -/
def Flaw.describe : Flaw Float → String
  | priorWeight got => s!"reputation.prior_weight must be > 0, got {Decimal.ofFloat got}"
  | criticalMagnitude got =>
    s!"betrayal.critical_cycle_magnitude must be > 0, got {Decimal.ofFloat got}"
  | minCoverage got => s!"betrayal.min_coverage must be within [0, 1], got {Decimal.ofFloat got}"
  | maxRounds => "betrayal.bp_max_iterations must be at least 1"
  | tolerance got => s!"betrayal.bp_tolerance must be within (0, 1), got {Decimal.ofFloat got}"
  | maxHops => "proof.max_hops must be at least 1"

end Config

end WebOfTrust
