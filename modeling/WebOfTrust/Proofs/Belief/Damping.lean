import Mathlib
import WebOfTrust.Proofs.Belief.Contraction

/-!
# Beliefs are damped

Over exact rationals an update leaves the belief of one half in every node as it is, and it brings
beliefs no further apart than they are. So beliefs never come further from one half than the source
is, which has one. As no round moves beliefs by more than the round before, a run that has converged
has come near to a fixed point.

* `Graph.update_half`: beliefs of one half stay;
* `Graph.Built.trajectory_mem`, `Graph.trajectory_source`: the beliefs after each round;
* `Graph.Built.residual_antitone`: the residuals of the rounds;
* `Graph.Steadied`: another round moves no belief by more than a tolerance;
* **`Graph.Built.propagation_damped`**: what every round preserves, and where a run converges.
-/

namespace WebOfTrust.Graph

variable {g : Graph ℚ} {source : NodeId} {nodes : KeySet NodeId} {now : Instant} {v : NodeId}
  {bound n : ℕ} {tolerance : ℚ}

/-! ## The beliefs after each round -/

/-- Beliefs of one half stay, as every edge says one half of its target then. -/
theorem update_half (g : Graph ℚ) (source : NodeId) (nodes : KeySet NodeId) (now : Instant)
    (v : NodeId) : g.update source nodes now (fun _ => 1 / 2) v = 1 / 2 := by
  have hopinion : ∀ e : Edge ℚ, e.opinion (fun _ => 1 / 2) = 1 / 2 := by
    intro e
    rw [Edge.opinion_eq, sub_self, mul_zero, add_zero]
  by_cases hstill : g.Still source nodes now v
  · rw [update, if_pos hstill]
  · have hpos := voiceWeight_pos_of_not_still hstill
    rw [update_of_not_still hstill]
    simp only [hopinion, List.sum_map_mul_right]
    exact mul_div_cancel_left₀ _ hpos.ne'

/-- **No belief comes further from one half than one half.** -/
theorem Built.abs_trajectory_sub_half_le (hg : g.Built) (hv : nodes.contains v = true) :
    |g.trajectory source nodes now n v - 1 / 2| ≤ 1 / 2 := by
  induction n generalizing v with
  | zero =>
    show |(if v = source then 1 else Arith.half) - 1 / 2| ≤ (1 : ℚ) / 2
    rw [Arith.half_eq]
    split_ifs <;> norm_num
  | succ n ih =>
    have hle : |g.update source nodes now (g.trajectory source nodes now n) v -
        g.update source nodes now (fun _ => 1 / 2) v| ≤ 1 / 2 :=
      hg.abs_update_sub_le (fun u hu => ih hu) hv
    rw [update_half] at hle
    exact hle

theorem Built.trajectory_mem (hg : g.Built) (hv : nodes.contains v = true) :
    0 ≤ g.trajectory source nodes now n v ∧ g.trajectory source nodes now n v ≤ 1 := by
  have hnear : |g.trajectory source nodes now n v - 1 / 2| ≤ 1 / 2 :=
    hg.abs_trajectory_sub_half_le hv
  obtain ⟨hlow, hhigh⟩ := abs_le.mp hnear
  exact ⟨by linarith, by linarith⟩

theorem trajectory_source (g : Graph ℚ) (source : NodeId) (nodes : KeySet NodeId) (now : Instant)
    (n : ℕ) : g.trajectory source nodes now n source = 1 := by
  induction n with
  | zero => exact if_pos rfl
  | succ n ih =>
    show g.update source nodes now (g.trajectory source nodes now n) source = 1
    rw [update, if_pos (.inl rfl), ih]

/-! ## Residuals -/

theorem residual_propagation (htolerance : 0 < tolerance) (n : ℕ) :
    (g.propagation source nodes now bound tolerance (n + 1)).residual =
      (g.trajectory source nodes now).largestChange nodes (n + 1) :=
  (follows_propagation htolerance (n + 1)).residual (Nat.succ_pos n)

/-- **The residuals of the rounds do not grow.** -/
theorem Built.residual_antitone (hg : g.Built) (htolerance : 0 < tolerance) :
    Antitone fun n => (g.propagation source nodes now bound tolerance (n + 1)).residual := by
  intro m n hmn
  dsimp only
  rw [residual_propagation htolerance, residual_propagation htolerance]
  exact hg.largestChange_antitone hmn

/-- Another round moves no belief by more than a tolerance, whatever is remembered besides the
beliefs. -/
def Steadied (g : Graph ℚ) (source : NodeId) (nodes : KeySet NodeId) (now : Instant)
    (tolerance : ℚ) (b : Beliefs ℚ) : Prop :=
  ∀ (p : Propagation ℚ) (late : Bool), p.beliefs = b → ∀ v x, b.get? v = some x →
    ∃ y, (p.round tolerance late (g.inboxes source nodes now)).beliefs.get? v = some y ∧
      |y - x| ≤ tolerance

/-- After a round that has settled, the beliefs move no further than that in the next one. -/
theorem Built.steadied_of_residual (hg : g.Built) (htolerance : 0 < tolerance) (hn : 0 < n)
    (h : (g.propagation source nodes now bound tolerance n).residual ≤ tolerance) :
    g.Steadied source nodes now tolerance
      (g.propagation source nodes now bound tolerance n).beliefs := by
  intro p late hp v x hx
  have hb : p.beliefs.Tabulates nodes (g.trajectory source nodes now n) := by
    rw [hp]
    exact (follows_propagation htolerance n).tabulates
  rw [← hp, hb] at hx
  split_ifs at hx with hv
  obtain rfl := Option.some.inj hx
  refine ⟨g.trajectory source nodes now (n + 1) v, ?_, ?_⟩
  · rw [Propagation.tabulates_round hb, if_pos hv]
    rfl
  · obtain ⟨k, rfl⟩ := Nat.exists_eq_add_of_le' hn
    rw [residual_propagation htolerance] at h
    calc |g.trajectory source nodes now (k + 1 + 1) v - g.trajectory source nodes now (k + 1) v|
        = Arith.magnitude ((g.trajectory source nodes now).change (k + 1 + 1) v) :=
          (Arith.magnitude_eq_abs _).symm
      _ ≤ (g.trajectory source nodes now).largestChange nodes (k + 1 + 1) :=
          Arith.le_largest (List.mem_map_of_mem (Table.mem_keys_iff.mpr hv))
      _ ≤ (g.trajectory source nodes now).largestChange nodes (k + 1) :=
          hg.largestChange_succ_le k
      _ ≤ tolerance := h

/-! ## Damping -/

/-- **Belief propagation never amplifies**: beliefs stay between 0 and 1, residuals do not grow. -/
theorem Built.propagation_damped (hg : g.Built) (source : NodeId) (nodes : KeySet NodeId)
    (now : Instant) (bound : ℕ) (htolerance : 0 < tolerance) :
    let state := g.propagation source nodes now bound tolerance
    (∀ n v, ((state n).beliefs.get? v).isSome = true ↔ nodes.contains v = true) ∧
    (∀ n v x, (state n).beliefs.get? v = some x → 0 ≤ x ∧ x ≤ 1) ∧
    (nodes.contains source = true → ∀ n, (state n).beliefs.get? source = some 1) ∧
    (Antitone fun n => (state (n + 1)).residual) ∧
    ∀ rounds beliefs, g.propagate source nodes now bound tolerance = .converged rounds beliefs →
      beliefs = (state rounds).beliefs ∧ g.Steadied source nodes now tolerance beliefs := by
  intro state
  have htabulates (n : ℕ) : (state n).beliefs.Tabulates nodes (g.trajectory source nodes now n) :=
    (follows_propagation htolerance n).tabulates
  refine ⟨fun n v => ?_, fun n v x hx => ?_, fun hsource n => ?_,
    hg.residual_antitone htolerance, fun rounds beliefs hrun => ?_⟩
  · rw [htabulates n v]
    split_ifs with hv <;> simp [hv]
  · rw [htabulates n v] at hx
    split_ifs at hx with hv
    obtain rfl := Option.some.inj hx
    exact hg.trajectory_mem hv
  · rw [htabulates n source, if_pos hsource, trajectory_source]
  · obtain ⟨hpos, hsettled, rfl⟩ := settled_of_converged hrun
    exact ⟨rfl, hg.steadied_of_residual htolerance hpos hsettled⟩

section Quarrel

/-- The quarrel converges in one round up to a tenth, by which the next round moves a belief. -/
theorem propagation_damped_quarrel :
    let nodes := quarrel.reachable 0 1
    quarrel.Built ∧ (0 : ℚ) < 1 / 10 ∧ ∃ beliefs,
      quarrel.propagate 0 nodes 1 4 (1 / 10) = .converged 1 beliefs ∧
        beliefs.get? 2 = some (1 / 2) ∧
        (quarrel.propagation 0 nodes 1 4 (1 / 10) 2).beliefs.get? 2 = some (3 / 5) ∧
        quarrel.Steadied 0 nodes 1 (1 / 10) beliefs := by
  intro nodes
  have hbuilt : quarrel.Built := Built.empty.addAll _
  have htolerance : (0 : ℚ) < 1 / 10 := by norm_num
  have hsettled : (quarrel.propagation 0 nodes 1 4 (1 / 10) 1).residual ≤ 1 / 10 := by
    decide +kernel
  obtain ⟨rounds, beliefs, hpos, hle, hrun⟩ := exists_converged one_pos (by decide) hsettled
  obtain rfl : rounds = 1 := le_antisymm hle hpos
  obtain ⟨-, -, -, -, hconverged⟩ := hbuilt.propagation_damped 0 nodes 1 4 htolerance
  obtain ⟨rfl, hsteadied⟩ := hconverged 1 beliefs hrun
  exact ⟨hbuilt, htolerance, _, hrun, by decide +kernel, by decide +kernel, hsteadied⟩

end Quarrel

end WebOfTrust.Graph
