import Mathlib
import WebOfTrust.Proofs.Betrayal.Scores
import WebOfTrust.Slash

/-!
# Severity

The severity of a signal is a score of detection in steps of one 255th. The score that makes a
finding critical lies half a step below a whole number of steps, so the byte tells a critical
finding from any other.

* `Arith.roundHalfUp_eq_round`: rounding of values that are not negative;
* **`severity_eq_round`**, **`le_severity_iff`**: the severity of a score, and when it is critical;
* `Graph.detect_score_mem`, `Graph.detect_score_of_none`: scores of detection lie between 0 and 1,
  whatever the settings, and are 0 if nothing is found;
* `Anomaly.SeverityLaw`: what a severity says of a finding; **`Graph.severityLaw_detect`**.
-/

namespace WebOfTrust

/-! ## Rounding -/

namespace Arith

theorem roundHalfUp_eq_round {x : ℚ} (h : 0 ≤ x) : (roundHalfUp x : ℤ) = round x := by
  have hwhole : ((truncate x : ℕ) : ℤ) = ⌊x⌋ := Int.toNat_of_nonneg (Int.floor_nonneg.mpr h)
  have hcast : ((truncate x : ℕ) : ℚ) = (⌊x⌋ : ℤ) := by
    rw [← hwhole]
    rfl
  have hle : (⌊x⌋ : ℚ) ≤ x := Int.floor_le x
  have hlt : x < ⌊x⌋ + 1 := Int.lt_floor_add_one x
  rw [round_eq, eq_comm]
  unfold roundHalfUp
  rw [half_eq]
  dsimp only
  split_ifs with hhalf
  · change x - ((truncate x : ℕ) : ℚ) < 1 / 2 at hhalf
    rw [hcast] at hhalf
    rw [hwhole, Int.floor_eq_iff]
    exact ⟨by linarith, by linarith⟩
  · change ¬ x - ((truncate x : ℕ) : ℚ) < 1 / 2 at hhalf
    rw [hcast] at hhalf
    rw [Nat.cast_succ, hwhole, Int.floor_eq_iff]
    push_cast
    exact ⟨by linarith, by linarith⟩

end Arith

/-! ## Scores as bytes -/

section Byte

variable {score : ℚ}

/-- **The severity of a score is the nearest number of 255ths**, and a half goes up. -/
theorem severity_eq_round (h : 0 ≤ score) (h' : score ≤ 1) :
    ((severity score).toNat : ℤ) = round (255 * score) := by
  have hround : (Arith.roundHalfUp (score * (255 : ℕ)) : ℤ) = round (255 * score) := by
    rw [Arith.roundHalfUp_eq_round (by positivity), mul_comm]
    rfl
  have hlt : round (255 * score) < 256 := by
    rw [round_eq, Int.floor_lt]
    push_cast
    linarith
  have hseverity : severity score = UInt8.ofNat (Arith.roundHalfUp (score * (255 : ℕ))) := by
    unfold severity
    rw [Arith.clampUnit_of_mem h h']
    rfl
  rw [hseverity, UInt8.toNat_ofNat', Nat.mod_eq_of_lt (by omega), hround]

/-- **A severity is at least 230 just when the score is critical.** -/
theorem le_severity_iff (h : 0 ≤ score) (h' : score ≤ 1) :
    230 ≤ severity score ↔ Anomaly.criticalScore ≤ score := by
  have hround := severity_eq_round h h'
  have hbyte : 230 ≤ severity score ↔ (230 : ℤ) ≤ (severity score).toNat := by
    rw [UInt8.le_iff_toNat_le]
    exact Int.ofNat_le.symm
  rw [hbyte, hround, round_eq, Int.le_floor, Anomaly.criticalScore_eq]
  push_cast
  constructor
  · intro hle
    linarith
  · intro hle
    linarith

end Byte

/-! ## Scores of detection -/

section Detection

variable [Logarithm ℚ] (g : Graph ℚ) (settings : BetrayalSettings ℚ) (source : NodeId)
  (now : Instant)

theorem divergenceScore_mem (first last tolerance : ℚ) :
    0 ≤ divergenceScore first last tolerance ∧ divergenceScore first last tolerance ≤ 1 := by
  unfold divergenceScore
  dsimp only
  split_ifs
  · exact ⟨le_refl 0, zero_le_one⟩
  · exact ⟨zero_le_one, le_refl 1⟩
  · exact Arith.clampUnit_mem _

theorem Graph.detect_score_mem :
    0 ≤ (g.detect settings source now).score ∧ (g.detect settings source now).score ≤ 1 := by
  rcases g.detect_cases settings with ⟨c, -, hdetect⟩ | ⟨-, hdetect⟩ | hdetect
  · rw [hdetect]
    exact Arith.clampUnit_mem _
  · rw [hdetect]
    exact Arith.clampUnit_mem _
  · rw [hdetect]
    cases g.propagate source (g.reachable source now) now settings.maxRounds settings.tolerance with
    | converged rounds b => exact ⟨le_refl 0, zero_le_one⟩
    | settling rounds residual b => exact ⟨le_refl 0, zero_le_one⟩
    | diverged v first last rounds => exact divergenceScore_mem _ _ _

theorem Graph.detect_score_of_none (h : (g.detect settings source now).reason = .none) :
    (g.detect settings source now).score = 0 := by
  rcases g.detect_cases settings with ⟨c, -, hdetect⟩ | ⟨-, hdetect⟩ | hdetect
  · rw [hdetect] at h
    cases h
  · rw [hdetect] at h
    cases h
  · rw [hdetect] at h ⊢
    cases hrun : g.propagate source (g.reachable source now) now settings.maxRounds
        settings.tolerance with
    | converged rounds b => rfl
    | settling rounds residual b => rfl
    | diverged v first last rounds =>
      rw [hrun] at h
      cases h

/-- What a severity says of a finding. -/
structure Anomaly.SeverityLaw (finding : Anomaly ℚ) (severity : UInt8) : Prop where
  mem_unit : 0 ≤ finding.score ∧ finding.score ≤ 1
  /-- The score in 255ths; it is not negative, so a half goes away from zero. -/
  rounded : (severity.toNat : ℤ) = round (255 * finding.score)
  critical : 230 ≤ severity ↔ finding.isCritical = true
  clean : finding.reason = .none → severity = 0

/-- **The severity of the score that detection gives to a finding** says how bad the finding is. -/
theorem Graph.severityLaw_detect :
    (g.detect settings source now).SeverityLaw (severity (g.detect settings source now).score) := by
  obtain ⟨hnonneg, hle⟩ := g.detect_score_mem settings source now
  constructor
  case mem_unit => exact ⟨hnonneg, hle⟩
  case rounded => exact severity_eq_round hnonneg hle
  case critical => rw [le_severity_iff hnonneg hle, Anomaly.isCritical, decide_eq_true_eq]
  case clean =>
    intro hnone
    have hzero := severity_eq_round (le_refl 0) zero_le_one
    rw [mul_zero, round_zero] at hzero
    rw [g.detect_score_of_none settings source now hnone]
    exact UInt8.toNat_inj.mp (Int.ofNat_inj.mp hzero)

end Detection

end WebOfTrust
