import Mathlib
import WebOfTrust.Proofs.Belief.Outcome
import WebOfTrust.Proofs.Edge.Weight
import WebOfTrust.Proofs.Graph.Live

/-!
# Beliefs settle down

Over exact rationals a valid edge says of its target no more than one half and its risk times what
the belief in its source is above one half. A difference between beliefs therefore never grows on
its way along an edge, nor in a mean, and no round changes beliefs by more than the round before.

* `Edge.opinion_eq`, `Edge.abs_opinion_sub_le`: what an edge says, and how it depends on its source;
* **`Graph.Built.abs_update_sub_le`**: an update brings beliefs no further apart;
* **`Graph.Built.largestChange_antitone`**: the largest changes of the rounds do not grow.
-/

namespace WebOfTrust

variable {x y : NodeId → ℚ} {r : ℚ}

/-! ## What an edge says -/

theorem Edge.opinion_eq (e : Edge ℚ) (x : NodeId → ℚ) :
    e.opinion x = 1 / 2 + e.risk * (x e.source - 1 / 2) := by
  show x e.source * ((1 + e.risk) / ((2 : ℕ) : ℚ)) +
    (1 - x e.source) * (1 - (1 + e.risk) / ((2 : ℕ) : ℚ)) = _
  push_cast
  ring

theorem Edge.abs_opinion_sub_le {e : Edge ℚ} (he : |e.risk| ≤ 1)
    (h : |x e.source - y e.source| ≤ r) :
    |e.opinion x - e.opinion y| ≤ r := by
  have hsub : e.opinion x - e.opinion y = e.risk * (x e.source - y e.source) := by
    rw [opinion_eq, opinion_eq]
    ring
  calc |e.opinion x - e.opinion y| = |e.risk| * |x e.source - y e.source| := by rw [hsub, abs_mul]
    _ ≤ 1 * |x e.source - y e.source| := by gcongr
    _ ≤ r := by rwa [one_mul]

/-! ## Updates -/

namespace Graph

variable {g : Graph ℚ} {source : NodeId} {nodes : KeySet NodeId} {now : Instant} {v : NodeId}

theorem voiceWeight_eq :
    g.voiceWeight nodes now v = ((g.voices nodes now v).map Edge.levelWeight).sum :=
  List.sum_eq_foldl.symm

theorem update_of_not_still (h : ¬ g.Still source nodes now v) :
    g.update source nodes now x v =
      ((g.voices nodes now v).map fun e => e.levelWeight * e.opinion x).sum /
        ((g.voices nodes now v).map Edge.levelWeight).sum := by
  rw [update, if_neg h, voiceWeight_eq]
  exact congrArg (· / _) List.sum_eq_foldl.symm

theorem voiceWeight_pos_of_not_still (h : ¬ g.Still source nodes now v) :
    0 < ((g.voices nodes now v).map Edge.levelWeight).sum := by
  rw [← voiceWeight_eq]
  exact not_le.mp fun hle => h (.inr (.inr hle))

theorem Built.abs_risk_le (hg : g.Built) {a : Arc} {e : Edge ℚ} (he : g.lookup a now = some e) :
    |e.risk| ≤ 1 := Edge.abs_risk_le (hg.fault?_of_lookup he)

/-- **An update brings beliefs no further apart** than they are in the worst case. -/
theorem Built.abs_update_sub_le (hg : g.Built)
    (h : ∀ u, nodes.contains u = true → |x u - y u| ≤ r) (hv : nodes.contains v = true) :
    |g.update source nodes now x v - g.update source nodes now y v| ≤ r := by
  by_cases hstill : g.Still source nodes now v
  · rw [update, update, if_pos hstill, if_pos hstill]
    exact h v hv
  · rw [update_of_not_still hstill, update_of_not_still hstill]
    refine Arith.abs_mean_sub_le (fun e _ => e.levelWeight_pos.le)
      (voiceWeight_pos_of_not_still hstill) ?_
    intro e he
    obtain ⟨hincoming, hsource⟩ := List.mem_filter.mp he
    exact Edge.abs_opinion_sub_le (hg.abs_risk_le (hg.mem_incoming_iff.mp hincoming).2)
      (h e.source hsource)

theorem Built.largestChange_succ_le (hg : g.Built) (k : ℕ) :
    (g.trajectory source nodes now).largestChange nodes (k + 2) ≤
      (g.trajectory source nodes now).largestChange nodes (k + 1) := by
  refine Arith.largest_le (Arith.largest_nonneg _) fun d hd => ?_
  obtain ⟨v, hv, rfl⟩ := List.mem_map.mp hd
  rw [Arith.magnitude_eq_abs]
  apply hg.abs_update_sub_le
  · intro u hu
    rw [← Arith.magnitude_eq_abs]
    exact Arith.le_largest (List.mem_map_of_mem (Table.mem_keys_iff.mpr hu))
  · exact Table.mem_keys_iff.mp hv

/-- **The largest changes of the rounds do not grow.** -/
theorem Built.largestChange_antitone (hg : g.Built) :
    Antitone fun k => (g.trajectory source nodes now).largestChange nodes (k + 1) :=
  antitone_nat_of_succ_le hg.largestChange_succ_le

end Graph

end WebOfTrust
