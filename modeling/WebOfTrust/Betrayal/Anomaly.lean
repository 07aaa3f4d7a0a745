import WebOfTrust.Arith
import WebOfTrust.Identity

/-!
# Anomalies

What detection reports: a node, a score from 0 to 1, and the reason.

* `Reason`: `code`, `ofCode?`;
* `Anomaly`: `clean`, `isCritical`.
-/

namespace WebOfTrust

/-- What detection may find, the weightiest first. -/
inductive Reason where
  | none
  | negativeCycle
  | lowCoverage
  | divergence
deriving DecidableEq

namespace Reason

/-- The number of a reason. -/
def code : Reason → UInt8
  | none => 0
  | negativeCycle => 1
  | lowCoverage => 2
  | divergence => 3

/-- The reason with a number. -/
def ofCode? (code : UInt8) : Option Reason :=
  if code = 0 then some none
  else if code = 1 then some negativeCycle
  else if code = 2 then some lowCoverage
  else if code = 3 then some divergence
  else Option.none

end Reason

/-- A finding of detection. -/
structure Anomaly (α : Type) where
  node : NodeId
  /-- From 0 to 1. -/
  score : α
  reason : Reason
deriving DecidableEq

namespace Anomaly

variable {α : Type} [Arith α]

/-- The score from which on an anomaly is critical. -/
def criticalScore : α := Arith.ratio 9 10

/-- No finding. -/
def clean (node : NodeId) : Anomaly α := ⟨node, 0, .none⟩

/-- Whether an anomaly calls for action. -/
def isCritical (a : Anomaly α) : Bool := criticalScore ≤ a.score

end Anomaly

end WebOfTrust
