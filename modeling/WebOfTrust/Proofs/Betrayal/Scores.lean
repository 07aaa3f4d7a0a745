import Mathlib
import WebOfTrust.Proofs.Belief.Acyclic
import WebOfTrust.Proofs.Belief.Contraction
import WebOfTrust.Proofs.Betrayal.Completeness

/-!
# What scores say

Over exact rationals every kind of finding has a score above zero, so a score of zero means that
nothing was found. The cycles found are negative by more than the slack, a coverage that is too low
is below one, and beliefs that diverge have moved no more in the last round than in the first, but
still by more than the tolerance.

* `cycleScore_mono`, `criticalScore_le_cycleScore_iff`: the score of a negative cycle grows with its
  magnitude, and is critical from the critical magnitude on;
* `divergenceScore_eq`, `ln_ratio_mem`: the score of a run that has diverged is a ratio of
  logarithms that lies between 0 and 1 by itself;
* `Graph.Built.total_lt_of_worstCycle?`, `Graph.Built.residuals_of_diverged`: what is found;
* `Graph.ScoreLaw`: what a score says of its finding;
* **`Graph.Built.scoreLaw_detect`**: the scores of detection say that.
-/

namespace WebOfTrust

/-! ## Scores of negative cycles -/

section Cycles

variable {m c : ℚ}

theorem Anomaly.criticalScore_eq : (Anomaly.criticalScore : ℚ) = 9 / 10 := by
  norm_num [Anomaly.criticalScore, Arith.ratio]

theorem cycleScore_eq (m c : ℚ) : cycleScore m c =
    Arith.clampUnit
      (if c ≤ m then 9 / 10 + 1 / 10 * min ((m - c) / c) 1 else 9 / 10 * (m / c)) := by
  have htenth : (1 : ℚ) - 9 / 10 = 1 / 10 := by norm_num
  rw [cycleScore, Anomaly.criticalScore_eq, Arith.atMostOne_eq, htenth, mul_div_assoc]

theorem excess_mem (hc : 0 < c) (h : c ≤ m) :
    0 ≤ min ((m - c) / c) 1 ∧ min ((m - c) / c) 1 ≤ 1 :=
  ⟨le_min (div_nonneg (sub_nonneg.mpr h) hc.le) zero_le_one, min_le_right _ _⟩

theorem cycleScore_of_lt (hm : 0 ≤ m) (h : m < c) : cycleScore m c = 9 / 10 * (m / c) := by
  have hc : 0 < c := hm.trans_lt h
  have hratio : m / c < 1 := (div_lt_one hc).mpr h
  rw [cycleScore_eq, if_neg (not_le.mpr h)]
  exact Arith.clampUnit_of_mem (by positivity) (by linarith)

theorem cycleScore_of_le (hc : 0 < c) (h : c ≤ m) :
    cycleScore m c = 9 / 10 + 1 / 10 * min ((m - c) / c) 1 := by
  obtain ⟨hnonneg, hle⟩ := excess_mem hc h
  rw [cycleScore_eq, if_pos h]
  exact Arith.clampUnit_of_mem (by linarith) (by linarith)

theorem cycleScore_mem (hc : 0 < c) (hm : 0 < m) : 0 < cycleScore m c ∧ cycleScore m c ≤ 1 := by
  rcases lt_or_ge m c with h | h
  · have hratio : m / c < 1 := (div_lt_one hc).mpr h
    rw [cycleScore_of_lt hm.le h]
    exact ⟨by positivity, by linarith⟩
  · obtain ⟨hnonneg, hle⟩ := excess_mem hc h
    rw [cycleScore_of_le hc h]
    exact ⟨by linarith, by linarith⟩

theorem criticalScore_le_cycleScore_iff (hc : 0 < c) (hm : 0 ≤ m) :
    Anomaly.criticalScore ≤ cycleScore m c ↔ c ≤ m := by
  rw [Anomaly.criticalScore_eq]
  rcases lt_or_ge m c with h | h
  · have hratio : m / c < 1 := (div_lt_one hc).mpr h
    rw [cycleScore_of_lt hm h]
    exact iff_of_false (by linarith) (not_le.mpr h)
  · rw [cycleScore_of_le hc h]
    exact iff_of_true (by linarith [(excess_mem hc h).1]) h

/-- **The score of a cycle does not fall as the magnitude grows.** -/
theorem cycleScore_mono (hc : 0 < c) : Monotone (cycleScore · c) := by
  intro a b hab
  dsimp only
  rw [cycleScore_eq, cycleScore_eq]
  apply Arith.clampUnit_mono
  rcases lt_or_ge a c with ha | ha <;> rcases lt_or_ge b c with hb | hb
  · rw [if_neg (not_le.mpr ha), if_neg (not_le.mpr hb)]
    gcongr
  · -- From below the critical magnitude to above it, through the critical score.
    have hratio : a / c < 1 := (div_lt_one hc).mpr ha
    rw [if_neg (not_le.mpr ha), if_pos hb]
    linarith [(excess_mem hc hb).1]
  · exact absurd (ha.trans hab) (not_le.mpr hb)
  · rw [if_pos ha, if_pos hb]
    gcongr

end Cycles

/-! ## Scores of divergence -/

section Divergence

variable [Logarithm ℚ] {first last tolerance : ℚ}

theorem ln_pos (hln : StrictMonoOn (Logarithm.ln : ℚ → ℚ) (Set.Ioi 0))
    (hone : Logarithm.ln (1 : ℚ) = 0) {x : ℚ} (hx : 1 < x) : 0 < Logarithm.ln x := by
  rw [← hone]
  exact hln (Set.mem_Ioi.mpr one_pos) (Set.mem_Ioi.mpr (one_pos.trans hx)) hx

theorem ln_ratio_mem (hln : StrictMonoOn (Logarithm.ln : ℚ → ℚ) (Set.Ioi 0))
    (hone : Logarithm.ln (1 : ℚ) = 0) (htolerance : 0 < tolerance) (hlast : tolerance < last)
    (hfirst : last ≤ first) :
    0 < Logarithm.ln (last / tolerance) / Logarithm.ln (first / tolerance) ∧
      Logarithm.ln (last / tolerance) / Logarithm.ln (first / tolerance) ≤ 1 := by
  have hnear : 1 < last / tolerance := (one_lt_div htolerance).mpr hlast
  have hgrow : last / tolerance ≤ first / tolerance := by gcongr
  have hlnnear : 0 < Logarithm.ln (last / tolerance) := ln_pos hln hone hnear
  have hlnfar : 0 < Logarithm.ln (first / tolerance) := ln_pos hln hone (hnear.trans_le hgrow)
  have hle : Logarithm.ln (last / tolerance) ≤ Logarithm.ln (first / tolerance) :=
    (hln.le_iff_le (one_pos.trans hnear) (one_pos.trans (hnear.trans_le hgrow))).mpr hgrow
  exact ⟨div_pos hlnnear hlnfar, (div_le_one hlnfar).mpr hle⟩

theorem divergenceScore_eq (hln : StrictMonoOn (Logarithm.ln : ℚ → ℚ) (Set.Ioi 0))
    (hone : Logarithm.ln (1 : ℚ) = 0) (htolerance : 0 < tolerance) (hlast : tolerance < last)
    (hfirst : last ≤ first) : divergenceScore first last tolerance =
      Logarithm.ln (last / tolerance) / Logarithm.ln (first / tolerance) := by
  have hspan : 0 < Logarithm.ln (first / tolerance) :=
    ln_pos hln hone ((one_lt_div htolerance).mpr (hlast.trans_le hfirst))
  obtain ⟨hpos, hle⟩ := ln_ratio_mem hln hone htolerance hlast hfirst
  rw [divergenceScore, if_neg (not_le.mpr hlast)]
  dsimp only
  split_ifs with h
  · -- Nothing has been gained since the first round, so both logarithms are the same.
    obtain rfl : first = last := le_antisymm (h.resolve_left (not_le.mpr hspan)) hfirst
    exact (div_self hspan.ne').symm
  · exact Arith.clampUnit_of_mem hpos.le hle

end Divergence

/-! ## What is found -/

theorem Config.criticalMagnitude_pos {config : Config ℚ} (h : config.flaw? = none) :
    0 < config.betrayal.criticalMagnitude := by
  unfold flaw? at h
  dsimp only at h
  split_ifs at h with _ hmagnitude
  exact hmagnitude.2

namespace Graph

variable {g : Graph ℚ} {source : NodeId} {now : Instant}

theorem coverage_nonneg : 0 ≤ g.coverage source now := by
  unfold coverage coverageWithin
  dsimp only
  split_ifs
  · exact zero_le_one
  · exact div_nonneg (Nat.cast_nonneg _) (Nat.cast_nonneg _)

/-- **The worst cycle is negative by more than the slack.** -/
theorem Built.total_lt_of_worstCycle? (hg : g.Built) {c : Cycle ℚ}
    (h : g.worstCycle? source (g.reachable source now) now = some c) : c.total < -Search.slack := by
  obtain ⟨r, hr, ⟨htrace, hcycle⟩, -⟩ := worstCycle?_mem h
  obtain ⟨c', ⟨htrace', hcycle'⟩, hlt⟩ := hg.exists_negative_of_residual hr
  have hnodes : c.nodes = c'.nodes := Option.some.inj (htrace.symm.trans htrace')
  rw [hnodes] at hcycle
  obtain rfl : c = c' := Option.some.inj (hcycle.symm.trans hcycle')
  exact hlt

/-- **A run that diverges reports changes that have not grown**, and have not settled either. -/
theorem Built.residuals_of_diverged (hg : g.Built) {nodes : KeySet NodeId} {bound : ℕ}
    {tolerance : ℚ} (hbound : 0 < bound) (htolerance : 0 < tolerance) {v : NodeId} {first last : ℚ}
    {rounds : ℕ}
    (h : g.propagate source nodes now bound tolerance = .diverged v first last rounds) :
    tolerance < last ∧ last ≤ first := by
  obtain ⟨rfl, rfl, hlast⟩ := largestChange_of_diverged hbound htolerance h
  refine ⟨hlast, ?_⟩
  obtain ⟨k, rfl⟩ := Nat.exists_eq_add_of_le' hbound
  exact hg.largestChange_antitone (Nat.zero_le k)

/-! ## The law -/

/-- Detection reports the worst cycle, or else a low coverage, or else what beliefs come to. -/
theorem detect_cases [Logarithm ℚ] (settings : BetrayalSettings ℚ) :
    (∃ c, g.worstCycle? source (g.reachable source now) now = some c ∧
      g.detect settings source now = c.anomaly settings source) ∨
    (g.coverage source now < settings.minCoverage ∧ g.detect settings source now =
      ⟨source, Arith.clampUnit (1 - g.coverage source now), .lowCoverage⟩) ∨
    g.detect settings source now = (g.propagate source (g.reachable source now) now
      settings.maxRounds settings.tolerance).anomaly settings source := by
  cases hcycle : g.worstCycle? source (g.reachable source now) now with
  | some c => exact .inl ⟨c, rfl, detect_of_worstCycle? settings hcycle⟩
  | none =>
    by_cases hcovered : g.coverage source now < settings.minCoverage
    · refine .inr (.inl ⟨hcovered, ?_⟩)
      rw [detect, hcycle]
      exact if_pos hcovered
    · exact .inr (.inr (detect_of_covered hcycle hcovered))

/-- What a score says of its finding. -/
structure ScoreLaw [Logarithm ℚ] (g : Graph ℚ) (settings : BetrayalSettings ℚ) (source : NodeId)
    (now : Instant) (finding : Anomaly ℚ) : Prop where
  mem_unit : 0 ≤ finding.score ∧ finding.score ≤ 1
  eq_zero_iff : finding.score = 0 ↔ finding.reason = .none
  /-- A cycle is negative by more than the slack, and critical from the critical magnitude on. -/
  cycle : finding.reason = .negativeCycle → ∃ e, g.evidence? source now = some e ∧
    e.total < -Search.slack ∧ finding.score = cycleScore |e.total| settings.criticalMagnitude ∧
    (finding.isCritical = true ↔ settings.criticalMagnitude ≤ |e.total|)
  /-- The score is the part of the peers that is out of reach. -/
  coverage : finding.reason = .lowCoverage →
    g.coverage source now < settings.minCoverage ∧ finding.score = 1 - g.coverage source now
  /-- The score is a ratio of logarithms that lies between 0 and 1 by itself. -/
  divergence : finding.reason = .divergence → ∃ v first last rounds,
    g.propagate source (g.reachable source now) now settings.maxRounds settings.tolerance =
        .diverged v first last rounds ∧
      settings.tolerance < last ∧ last ≤ first ∧
      let ratio := Logarithm.ln (last / settings.tolerance) /
        Logarithm.ln (first / settings.tolerance)
      Arith.clampUnit ratio = ratio ∧ finding.score = ratio

section Law

variable [Logarithm ℚ] {config : Config ℚ}

theorem scoreLaw_clean : g.ScoreLaw config.betrayal source now (Anomaly.clean source) where
  mem_unit := ⟨le_refl 0, zero_le_one⟩
  eq_zero_iff := ⟨fun _ => rfl, fun _ => rfl⟩
  cycle h := Reason.noConfusion h
  coverage h := Reason.noConfusion h
  divergence h := Reason.noConfusion h

theorem Built.scoreLaw_cycle (hg : g.Built) (hvalid : config.flaw? = none) {c : Cycle ℚ}
    (h : g.worstCycle? source (g.reachable source now) now = some c) :
    g.ScoreLaw config.betrayal source now (c.anomaly config.betrayal source) := by
  have hcritical := Config.criticalMagnitude_pos hvalid
  have htotal := hg.total_lt_of_worstCycle? h
  have hslack := Search.slack_pos
  have hmagnitude : 0 < |c.total| := abs_pos.mpr (by linarith)
  have hscore : (c.anomaly config.betrayal source).score =
      cycleScore |c.total| config.betrayal.criticalMagnitude := by
    rw [← Arith.magnitude_eq_abs]
    rfl
  obtain ⟨hpos, hle⟩ := cycleScore_mem hcritical hmagnitude
  rw [← hscore] at hpos hle
  constructor
  case mem_unit => exact ⟨hpos.le, hle⟩
  case eq_zero_iff => exact iff_of_false hpos.ne' Reason.noConfusion
  case cycle =>
    intro _
    refine ⟨_, evidence?_eq_some_iff.mpr ⟨c, h, rfl⟩, htotal, hscore, ?_⟩
    rw [Anomaly.isCritical, decide_eq_true_eq, hscore]
    exact criticalScore_le_cycleScore_iff hcritical (abs_nonneg _)
  case coverage => exact fun h => Reason.noConfusion h
  case divergence => exact fun h => Reason.noConfusion h

theorem scoreLaw_coverage (hvalid : config.flaw? = none)
    (h : g.coverage source now < config.betrayal.minCoverage) :
    g.ScoreLaw config.betrayal source now
      ⟨source, Arith.clampUnit (1 - g.coverage source now), .lowCoverage⟩ := by
  have hlt : g.coverage source now < 1 := h.trans_le (Config.bounds_of_flaw? hvalid).1
  have hnonneg : 0 ≤ g.coverage source now := coverage_nonneg
  rw [Arith.clampUnit_of_mem (by linarith) (by linarith)]
  constructor
  case mem_unit => exact ⟨by linarith, by linarith⟩
  case eq_zero_iff => exact iff_of_false (by linarith) Reason.noConfusion
  case coverage => exact fun _ => ⟨h, rfl⟩
  case cycle => exact fun h => Reason.noConfusion h
  case divergence => exact fun h => Reason.noConfusion h

theorem Built.scoreLaw_propagate (hg : g.Built) (hvalid : config.flaw? = none)
    (hln : StrictMonoOn (Logarithm.ln : ℚ → ℚ) (Set.Ioi 0)) (hone : Logarithm.ln (1 : ℚ) = 0) :
    g.ScoreLaw config.betrayal source now
      ((g.propagate source (g.reachable source now) now config.betrayal.maxRounds
        config.betrayal.tolerance).anomaly config.betrayal source) := by
  obtain ⟨-, hbound, htolerance⟩ := Config.bounds_of_flaw? hvalid
  cases hrun : g.propagate source (g.reachable source now) now config.betrayal.maxRounds
      config.betrayal.tolerance with
  | converged rounds b => exact scoreLaw_clean
  | settling rounds residual b => exact scoreLaw_clean
  | diverged v first last rounds =>
    obtain ⟨hlast, hfirst⟩ := hg.residuals_of_diverged hbound htolerance hrun
    obtain ⟨hpos, hle⟩ := ln_ratio_mem hln hone htolerance hlast hfirst
    have hscore := divergenceScore_eq hln hone htolerance hlast hfirst
    rw [BeliefOutcome.anomaly, hscore]
    constructor
    case mem_unit => exact ⟨hpos.le, hle⟩
    case eq_zero_iff => exact iff_of_false hpos.ne' Reason.noConfusion
    case divergence =>
      exact fun _ => ⟨v, first, last, rounds, hrun, hlast, hfirst,
        Arith.clampUnit_of_mem hpos.le hle, rfl⟩
    case cycle => exact fun h => Reason.noConfusion h
    case coverage => exact fun h => Reason.noConfusion h

/-- **The law of scores**: from 0 to 1, 0 only if nothing is found, and as high as it is bad. -/
theorem Built.scoreLaw_detect (hg : g.Built) (hvalid : config.flaw? = none)
    (hln : StrictMonoOn (Logarithm.ln : ℚ → ℚ) (Set.Ioi 0)) (hone : Logarithm.ln (1 : ℚ) = 0)
    (source : NodeId) (now : Instant) :
    g.ScoreLaw config.betrayal source now (g.detect config.betrayal source now) ∧
      Monotone (cycleScore · config.betrayal.criticalMagnitude) := by
  refine ⟨?_, cycleScore_mono (Config.criticalMagnitude_pos hvalid)⟩
  rcases g.detect_cases config.betrayal with ⟨c, hc, hdetect⟩ | ⟨hcovered, hdetect⟩ | hdetect
  · rw [hdetect]
    exact hg.scoreLaw_cycle hvalid hc
  · rw [hdetect]
    exact scoreLaw_coverage hvalid hcovered
  · rw [hdetect]
    exact hg.scoreLaw_propagate hvalid hln hone

end Law

section Quarrel

/-- A function of rationals that grows, and is zero at one. -/
@[reducible]
def aboveOne : Logarithm ℚ := ⟨fun x => x - 1⟩

/-- Four rounds with a coarse tolerance. -/
def hasty : Config ℚ :=
  { (Config.default : Config ℚ) with
    betrayal :=
      { (Config.default : Config ℚ).betrayal with maxRounds := 4, tolerance := 1 / 100 } }

/-- A node trusts three others, two of them for a shorter time. -/
def lapsed : Graph ℚ :=
  empty.addAll [⟨1, 2, 1, 0, 0, 3, 100⟩, ⟨1, 3, 1, 0, 0, 3, 50⟩, ⟨1, 4, 1, 0, 0, 3, 50⟩]

/-- A quarrel diverges, a self-betrayal is critical, and two lost peers of three are 2/3. -/
theorem scoreLaw_detect_quarrel :
    let _ := aboveOne
    (quarrel.Built ∧ selfBetrayal.Built ∧ lapsed.Built) ∧ hasty.flaw? = none ∧
      StrictMonoOn (Logarithm.ln : ℚ → ℚ) (Set.Ioi 0) ∧ Logarithm.ln (1 : ℚ) = 0 ∧
      (quarrel.detect hasty.betrayal 0 1).reason = .divergence ∧
      quarrel.ScoreLaw hasty.betrayal 0 1 (quarrel.detect hasty.betrayal 0 1) ∧
      (selfBetrayal.detect hasty.betrayal 2 1).reason = .negativeCycle ∧
      (selfBetrayal.detect hasty.betrayal 2 1).isCritical = true ∧
      (lapsed.detect hasty.betrayal 1 60).reason = .lowCoverage ∧
      (lapsed.detect hasty.betrayal 1 60).score = 2 / 3 := by
  intro _
  have hbuilt : quarrel.Built := Built.empty.addAll _
  have hself : selfBetrayal.Built := Built.empty.addAll _
  have hlapsed : lapsed.Built := Built.empty.addAll _
  have hvalid : hasty.flaw? = none := by decide +kernel
  have hln : StrictMonoOn (Logarithm.ln : ℚ → ℚ) (Set.Ioi 0) :=
    fun x _ y _ hxy => sub_lt_sub_right hxy 1
  have hone : Logarithm.ln (1 : ℚ) = 0 := sub_self 1
  have hdivergence : (quarrel.detect hasty.betrayal 0 1).reason = .divergence := by
    decide +kernel
  have hcycle : (selfBetrayal.detect hasty.betrayal 2 1).reason = .negativeCycle := by
    decide +kernel
  have hcoverage : (lapsed.detect hasty.betrayal 1 60).reason = .lowCoverage := by decide +kernel
  have htotal : ∀ e ∈ selfBetrayal.evidence? 2 1, e.total = -1 := by decide +kernel
  have hthird : lapsed.coverage 1 60 = 1 / 3 := by decide +kernel
  obtain ⟨e, he, -, -, hcritical⟩ := (hself.scoreLaw_detect hvalid hln hone 2 1).1.cycle hcycle
  obtain ⟨-, hscore⟩ := (hlapsed.scoreLaw_detect hvalid hln hone 1 60).1.coverage hcoverage
  refine ⟨⟨hbuilt, hself, hlapsed⟩, hvalid, hln, hone, hdivergence,
    (hbuilt.scoreLaw_detect hvalid hln hone 0 1).1, hcycle, hcritical.mpr ?_, hcoverage, ?_⟩
  · rw [htotal e he, abs_neg, abs_one]
    exact le_refl (1 : ℚ)
  · rw [hscore, hthird]
    norm_num

end Quarrel

end Graph

end WebOfTrust
