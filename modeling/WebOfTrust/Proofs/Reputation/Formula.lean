import Mathlib
import WebOfTrust.Proofs.Boundary.Respond
import WebOfTrust.Proofs.Edge.Weight
import WebOfTrust.Proofs.Graph.Views

/-!
# The formula of reputation

A score counts the live edges into a node, treats the case that there are none apart, and is kept
between zero and one. Over exact rationals it follows one formula over all edges into the node that
were not revoked: an edge that has expired has no weight left, and the neutral observation keeps the
score away from zero and one. The formula makes sense at all times, and is continuous in time, so
that no score jumps as an edge expires.

* `Graph.unrevokedInto`: the edges into a node that were not revoked;
  `Graph.Built.sum_incoming_eq`: the expired ones add nothing to sums over them;
* `Graph.riskInto`, `Graph.weightInto`, `Graph.blend`: the formula;
  `Graph.Built.tally_eq`, `Graph.Built.score_eq_blend`: the score follows it;
* `Graph.Built.blend_mem`, `Graph.continuous_blend`: its values;
* **`Graph.Built.reputation_formula`**: all of this of every node at every time.
-/

namespace WebOfTrust

/-! ## Edges that were not revoked -/

section Unrevoked

variable {α : Type} {g : Graph α} {now : Instant} {v : NodeId} {e : Edge α}

/-- The edges into a node that were not revoked, expired ones included. -/
def Graph.unrevokedInto (g : Graph α) (v : NodeId) : List (Edge α) :=
  ((g.records.values.filter fun r => !r.isRevoked).map (·.edge)).filter fun e => e.target = v

theorem Graph.filter_unrevokedInto (g : Graph α) (v : NodeId) (now : Instant) :
    (g.unrevokedInto v).filter (fun e => !e.isExpired now) =
      (g.liveEdges now).filter fun e => e.target = v := by
  have hlive : g.liveEdges now =
      ((g.records.values.filter fun r => !r.isRevoked).map (·.edge)).filter
        fun e => !e.isExpired now := by
    rw [liveEdges, List.filter_map, List.filter_filter]
    congr 2
    funext r
    exact Bool.and_comm _ _
  rw [hlive, unrevokedInto, List.filter_filter, List.filter_filter]
  congr 1
  funext e
  exact Bool.and_comm _ _

variable [Arith α]

/-- **The live edges into a node are those that were not revoked and have not expired.** -/
theorem Graph.Built.incoming_perm_unrevokedInto (hg : g.Built) (v : NodeId) (now : Instant) :
    (g.incoming v now).Perm ((g.unrevokedInto v).filter fun e => !e.isExpired now) := by
  rw [filter_unrevokedInto]
  exact hg.incoming_perm v now

theorem Graph.Built.fault?_of_mem_unrevokedInto (hg : g.Built) (he : e ∈ g.unrevokedInto v) :
    e.fault? = none := by
  obtain ⟨r, hr, rfl⟩ := List.mem_map.mp (List.mem_filter.mp he).1
  obtain ⟨⟨a, r⟩, hentry, rfl⟩ := List.mem_map.mp (List.mem_filter.mp hr).1
  exact hg.fault?_eq_none (Table.mem_entries_iff.mp hentry)

end Unrevoked

/-! ## Sums -/

theorem sum_map_filter_eq {β : Type} {q : β → Bool} {f : β → ℚ} {l : List β}
    (h : ∀ x ∈ l, q x = false → f x = 0) : ((l.filter q).map f).sum = (l.map f).sum := by
  induction l with
  | nil => rfl
  | cons x rest ih =>
    obtain ⟨hx, hrest⟩ := List.forall_mem_cons.mp h
    cases hq : q x with
    | true => simp [hq, ih hrest]
    | false => simp [hq, ih hrest, hx hq]

theorem Tally.foldl_add (now : Instant) (l : List (Edge ℚ)) :
    l.foldl (Tally.add now) Tally.zero =
      ⟨l.length, (l.map fun e => e.levelWeight * e.recency now * e.risk).sum,
        (l.map fun e => e.levelWeight * e.recency now).sum⟩ := by
  induction l using List.reverseRecOn with
  | nil => rfl
  | append_singleton l e ih =>
    rw [List.foldl_concat, ih, Tally.add]
    simp

namespace Graph

variable {g : Graph ℚ} {settings : ReputationSettings ℚ} {v : NodeId} {now : Instant}
  {ahead : Edge ℚ → ℚ}

/-- The weights of the edges into a node, given what is left of each one's life, times their risks.
-/
def riskInto (g : Graph ℚ) (v : NodeId) (ahead : Edge ℚ → ℚ) : ℚ :=
  ((g.unrevokedInto v).map fun e => e.levelWeight * ahead e * e.risk).sum

/-- The weights of the edges into a node, given what is left of each one's life. -/
def weightInto (g : Graph ℚ) (v : NodeId) (ahead : Edge ℚ → ℚ) : ℚ :=
  ((g.unrevokedInto v).map fun e => e.levelWeight * ahead e).sum

/-- One half plus half the mean of the risks, where a neutral observation takes part. -/
def blend (g : Graph ℚ) (priorWeight : ℚ) (v : NodeId) (ahead : Edge ℚ → ℚ) : ℚ :=
  (1 + g.riskInto v ahead / (priorWeight + g.weightInto v ahead)) / 2

/-- Sums over the live edges are sums over all that were not revoked. -/
theorem Built.sum_incoming_eq (hg : g.Built) (v : NodeId) (now : Instant) {f : Edge ℚ → ℚ}
    (hf : ∀ e, e.recency now = 0 → f e = 0) :
    ((g.incoming v now).map f).sum = ((g.unrevokedInto v).map f).sum := by
  rw [((hg.incoming_perm_unrevokedInto v now).map f).sum_eq]
  refine sum_map_filter_eq fun e he hexpired => hf e (Edge.recency_of_expired ?_ ?_)
  · exact Edge.timestamp_lt_expiration (hg.fault?_of_mem_unrevokedInto he)
  · simpa using hexpired

/-- **The tally of the live edges is that of all edges that were not revoked.** -/
theorem Built.tally_eq (hg : g.Built) (v : NodeId) (now : Instant) :
    g.tally v now = ⟨(g.incoming v now).length, g.riskInto v (·.recency now),
      g.weightInto v (·.recency now)⟩ := by
  rw [tally, Tally.foldl_add]
  congr 1
  · exact hg.sum_incoming_eq v now fun e he => by rw [he, mul_zero, zero_mul]
  · exact hg.sum_incoming_eq v now fun e he => by rw [he, mul_zero]

/-! ## The values of the formula -/

theorem weightInto_nonneg (hahead : ∀ e, 0 ≤ ahead e) : 0 ≤ g.weightInto v ahead :=
  List.sum_nonneg fun x hx => by
    obtain ⟨e, -, rfl⟩ := List.mem_map.mp hx
    exact mul_nonneg e.levelWeight_pos.le (hahead e)

theorem Built.abs_riskInto_le (hg : g.Built) (hahead : ∀ e, 0 ≤ ahead e) :
    |g.riskInto v ahead| ≤ g.weightInto v ahead := by
  have hbound : |g.riskInto v ahead - ((g.unrevokedInto v).map fun e =>
      e.levelWeight * ahead e * 0).sum| ≤ 1 * g.weightInto v ahead := by
    refine Arith.abs_sum_sub_le (fun e _ => mul_nonneg e.levelWeight_pos.le (hahead e)) ?_
    intro e he
    rw [sub_zero]
    exact Edge.abs_risk_le (hg.fault?_of_mem_unrevokedInto he)
  simpa using hbound

theorem Built.abs_blend_sub_half_le (hg : g.Built) {priorWeight : ℚ} (hprior : 0 < priorWeight)
    (hahead : ∀ e, 0 ≤ ahead e) : |g.blend priorWeight v ahead - 1 / 2| ≤
      g.weightInto v ahead / (2 * (priorWeight + g.weightInto v ahead)) := by
  have hpos : 0 < priorWeight + g.weightInto v ahead :=
    add_pos_of_pos_of_nonneg hprior (weightInto_nonneg hahead)
  have hsub : g.blend priorWeight v ahead - 1 / 2 =
      g.riskInto v ahead / (2 * (priorWeight + g.weightInto v ahead)) := by
    rw [blend]
    field_simp
    ring
  rw [hsub, abs_div, abs_of_pos (by linarith : 0 < 2 * (priorWeight + g.weightInto v ahead))]
  gcongr
  exact hg.abs_riskInto_le hahead

theorem weightInto_div_lt {priorWeight : ℚ} (hprior : 0 < priorWeight)
    (hahead : ∀ e, 0 ≤ ahead e) :
    g.weightInto v ahead / (2 * (priorWeight + g.weightInto v ahead)) < 1 / 2 := by
  have hnonneg : 0 ≤ g.weightInto v ahead := weightInto_nonneg hahead
  rw [div_lt_div_iff₀ (by linarith) two_pos]
  linarith

theorem Built.blend_mem (hg : g.Built) {priorWeight : ℚ} (hprior : 0 < priorWeight)
    (hahead : ∀ e, 0 ≤ ahead e) :
    0 < g.blend priorWeight v ahead ∧ g.blend priorWeight v ahead < 1 := by
  have hnear : |g.blend priorWeight v ahead - 1 / 2| < 1 / 2 :=
    (hg.abs_blend_sub_half_le hprior hahead).trans_lt (weightInto_div_lt hprior hahead)
  obtain ⟨hlow, hhigh⟩ := abs_lt.mp hnear
  exact ⟨by linarith, by linarith⟩

/-- **The formula is continuous in time.** -/
theorem continuous_blend (g : Graph ℚ) (v : NodeId) {priorWeight : ℚ} (hprior : 0 < priorWeight) :
    Continuous fun t => g.blend priorWeight v (·.freshness t) := by
  have hrisk : Continuous fun t => g.riskInto v (·.freshness t) :=
    continuous_list_sum _ fun e _ =>
      (continuous_const.mul e.continuous_freshness).mul continuous_const
  have hweight : Continuous fun t => g.weightInto v (·.freshness t) :=
    continuous_list_sum _ fun e _ => continuous_const.mul e.continuous_freshness
  have hpos : ∀ t : ℚ, priorWeight + g.weightInto v (·.freshness t) ≠ 0 := fun t =>
    (add_pos_of_pos_of_nonneg hprior (weightInto_nonneg fun e => e.freshness_nonneg t)).ne'
  exact (continuous_const.add (hrisk.div (continuous_const.add hweight) hpos)).div_const 2

/-! ## Scores -/

/-- Without live edges the formula gives one half by itself. -/
theorem Built.blend_of_incoming_eq_nil (hg : g.Built) (h : g.incoming v now = [])
    (priorWeight : ℚ) : g.blend priorWeight v (·.recency now) = Arith.half := by
  have hrisk : 0 = g.riskInto v (·.recency now) := by
    have htally := hg.tally_eq v now
    rw [tally, h] at htally
    exact congrArg Tally.weightedRisk htally
  rw [blend, ← hrisk, zero_div, add_zero, Arith.half_eq]

/-- **The score follows the formula**: the clamp changes nothing. -/
theorem Built.score_eq_blend (hg : g.Built) (hprior : 0 < settings.priorWeight) (v : NodeId)
    (now : Instant) : (g.reputation settings v now).score =
      g.blend settings.priorWeight v (·.recency now) := by
  have hmem : 0 < g.blend settings.priorWeight v (·.recency now) ∧
      g.blend settings.priorWeight v (·.recency now) < 1 :=
    hg.blend_mem hprior fun e => e.recency_nonneg now
  rw [reputation, hg.tally_eq v now]
  dsimp only
  split_ifs with hnone
  · exact (hg.blend_of_incoming_eq_nil (List.eq_nil_of_length_eq_zero hnone) _).symm
  · exact Arith.clampUnit_of_mem hmem.1.le hmem.2.le

theorem Built.score_eq_tally (hg : g.Built) (hprior : 0 < settings.priorWeight) (v : NodeId)
    (now : Instant) : (g.reputation settings v now).score =
      (1 + (g.tally v now).weightedRisk / (settings.priorWeight + (g.tally v now).weight)) / 2 := by
  rw [hg.score_eq_blend hprior, hg.tally_eq]
  rfl

theorem blend_congr {ahead' : Edge ℚ → ℚ} (h : ∀ e ∈ g.unrevokedInto v, ahead e = ahead' e)
    (priorWeight : ℚ) : g.blend priorWeight v ahead = g.blend priorWeight v ahead' := by
  have hrisk : g.riskInto v ahead = g.riskInto v ahead' :=
    congrArg List.sum (List.map_congr_left fun e he => by rw [h e he])
  have hweight : g.weightInto v ahead = g.weightInto v ahead' :=
    congrArg List.sum (List.map_congr_left fun e he => by rw [h e he])
  rw [blend, blend, hrisk, hweight]

/-- How the reputation of a node comes from the edges into it that were not revoked. -/
structure Reputed (g : Graph ℚ) (settings : ReputationSettings ℚ) (v : NodeId) (now : Instant) :
    Prop where
  /-- The sums over the live edges are those over all these edges. -/
  tally : g.tally v now = ⟨(g.incoming v now).length, g.riskInto v (·.recency now),
    g.weightInto v (·.recency now)⟩
  /-- The score follows the formula. -/
  score : (g.reputation settings v now).score =
    (1 + g.riskInto v (·.recency now) /
      (settings.priorWeight + g.weightInto v (·.recency now))) / 2
  /-- What the score is without live edges agrees with the formula. -/
  neutral : (g.tally v now).edges = 0 → g.blend settings.priorWeight v (·.recency now) = 1 / 2
  /-- The clamp changes nothing. -/
  unclamped : let x := (1 + (g.tally v now).weightedRisk /
      (settings.priorWeight + (g.tally v now).weight)) / 2
    Arith.clampUnit x = x
  /-- The score is no further from one half than the share of the weights allows. -/
  near_half : |(g.reputation settings v now).score - 1 / 2| ≤
    g.weightInto v (·.recency now) /
      (2 * (settings.priorWeight + g.weightInto v (·.recency now)))
  /-- That is less than one half. -/
  share_lt : g.weightInto v (·.recency now) /
    (2 * (settings.priorWeight + g.weightInto v (·.recency now))) < 1 / 2
  mem_unit : 0 < (g.reputation settings v now).score ∧ (g.reputation settings v now).score < 1
  /-- The score does not stand for the failure of any call. -/
  not_failure : ∀ call : Call ℚ, Answer.score (g.reputation settings v now).score ≠ call.failure

theorem Built.reputed (hg : g.Built) (hprior : 0 < settings.priorWeight) (v : NodeId)
    (now : Instant) : g.Reputed settings v now := by
  have hscore := hg.score_eq_blend hprior v now
  have hahead : ∀ e : Edge ℚ, 0 ≤ e.recency now := fun e => e.recency_nonneg now
  have hmem : 0 < g.blend settings.priorWeight v (·.recency now) ∧
      g.blend settings.priorWeight v (·.recency now) < 1 := hg.blend_mem hprior hahead
  refine ⟨hg.tally_eq v now, hscore, fun hnone => ?_, ?_, ?_, weightInto_div_lt hprior hahead, ?_,
    fun call => ?_⟩
  · rw [hg.tally_eq v now] at hnone
    rw [hg.blend_of_incoming_eq_nil (List.eq_nil_of_length_eq_zero hnone), Arith.half_eq]
  · rw [hg.tally_eq v now]
    exact Arith.clampUnit_of_mem hmem.1.le hmem.2.le
  · rw [hscore]
    exact hg.abs_blend_sub_half_le hprior hahead
  · rw [hscore]
    exact hmem
  · rw [hscore]
    have hne : g.blend settings.priorWeight v (·.recency now) ≠ -1 := by linarith [hmem.1]
    cases call <;> simp [Call.failure, hne]

/-- **Reputation follows one formula at all times**, without a clamp and without a jump. -/
theorem Built.reputation_formula (hg : g.Built) (hprior : 0 < settings.priorWeight) (v : NodeId) :
    (∀ now, g.Reputed settings v now) ∧
      Continuous (fun t : ℚ => g.blend settings.priorWeight v (·.freshness t)) ∧
      ∀ now : Instant, (g.reputation settings v now).score =
        g.blend settings.priorWeight v (·.freshness now.toNat) := by
  refine ⟨hg.reputed hprior v, g.continuous_blend v hprior, fun now => ?_⟩
  rw [hg.score_eq_blend hprior]
  refine blend_congr (fun e he => Edge.recency_eq_freshness ?_ now) _
  exact Edge.timestamp_lt_expiration (hg.fault?_of_mem_unrevokedInto he)

section Fading

/-- Trust for a hundred instants and distrust for ten; distrust that was revoked. -/
def fading : Graph ℚ :=
  ((Graph.empty.addAll
    [⟨2, 1, 1, 0, 0, 3, 100⟩, ⟨3, 1, -1, 0, 0, 3, 10⟩, ⟨4, 1, -1, 0, 0, 0, 100⟩]).revoke
      ⟨4, 1⟩ 7).2

/-- Halfway the trust has half its weight and the distrust none; the score ends at one half. -/
theorem reputation_formula_fading :
    let settings : ReputationSettings ℚ := Config.default.reputation
    fading.Built ∧ 0 < settings.priorWeight ∧ (fading.unrevokedInto 1).length = 2 ∧
      (fading.incoming 1 50).length = 1 ∧ fading.Reputed settings 1 50 ∧
      fading.blend settings.priorWeight 1 (·.freshness 50) = 3 / 4 ∧
      (fading.reputation settings 1 50).score = 3 / 4 ∧
      fading.blend settings.priorWeight 1 (·.freshness (199 / 2)) = 51 / 101 ∧
      (fading.reputation settings 1 100).score = 1 / 2 := by
  intro settings
  have hbuilt : fading.Built := (Built.empty.addAll _).revoke _ _
  have hprior : 0 < settings.priorWeight := by decide +kernel
  obtain ⟨hreputed, -, hscore⟩ := hbuilt.reputation_formula hprior 1
  refine ⟨hbuilt, hprior, by decide +kernel, by decide +kernel, hreputed 50, by decide +kernel, ?_,
    by decide +kernel, ?_⟩
  · rw [hscore]
    decide +kernel
  · rw [hscore]
    decide +kernel

end Fading

end Graph

end WebOfTrust
