import Mathlib
import WebOfTrust.Proofs.Belief.Depth
import WebOfTrust.Proofs.Graph.Views

/-!
# Reach without cycles

Where the live edges within reach run in no cycle, each leads up in some rank. No closed walk does
that, so there is no negative cycle, and no chain of messages is longer than the rank is high. A
belief that still moves in the last round has such a chain behind it. So the only finding there can
be is divergence, when the bound on the rounds is smaller than the length of some walk.

* `Graph.LinksWithin`, `Graph.AcyclicWithin`: live edges within reach that run in no cycle;
  `Built.acyclicWithin_of_rank`: those that all lead up do not;
* `Built.worstCycle?_of_acyclic`: there is no negative cycle;
* `Built.exists_walk_of_tells`: a chain of messages continues a walk from the source;
* **`Built.finding_of_acyclic`**: what detection finds; `acyclic_diverges`: beliefs may diverge.
-/

namespace WebOfTrust

variable {α : Type}

/-! ## Rank -/

namespace Graph

variable {g : Graph α} {source : NodeId} {now : Instant}

/-- A live edge leads from a node within reach of a source to another node. -/
def LinksWithin (g : Graph α) (source : NodeId) (now : Instant) (u v : NodeId) : Prop :=
  g.Reaches now source u ∧ ∃ e, g.lookup ⟨u, v⟩ now = some e

/-- No cycle of live edges is within reach of a source. -/
def AcyclicWithin (g : Graph α) (source : NodeId) (now : Instant) : Prop :=
  ∀ u, ¬ Relation.TransGen (g.LinksWithin source now) u u

theorem ClosedWalk.not_rising {walk : List (Edge α)} (hwalk : g.ClosedWalk now walk)
    {f : NodeId → ℕ} (hf : ∀ e ∈ walk, f e.source < f e.target) : False := by
  have hlt := List.sum_lt_sum_of_ne_nil hwalk.nonempty _ _ hf
  have hsum := hwalk.sum_target f
  rw [List.map_map, List.map_map] at hsum
  exact hlt.ne' hsum

theorem exists_walk_of_reaches {v : NodeId} (h : g.Reaches now source v) :
    ∃ n, StepsIn (g.LinksWithin source now) n source v := by
  induction h with
  | refl => exact ⟨0, rfl⟩
  | @tail u v hu hstep ih =>
    obtain ⟨n, hn⟩ := ih
    exact ⟨n + 1, u, hn, hu, hstep⟩

variable [Arith α]

theorem Built.acyclicWithin_of_rank (hg : g.Built) (source : NodeId) {f : NodeId → ℕ}
    (hf : ∀ e ∈ g.liveEdges now, f e.source < f e.target) : g.AcyclicWithin source now := by
  apply acyclic_of_rank (f := f)
  rintro u v ⟨-, e, he⟩
  obtain ⟨rfl, rfl⟩ := Arc.mk.inj (hg.arc_of_lookup he)
  exact hf e (hg.mem_liveEdges_iff.mpr he)

theorem Built.linksWithin_mem (hg : g.Built) {u v : NodeId} (h : g.LinksWithin source now u v) :
    u ∈ (g.reachable source now).keys.toFinset ∧ v ∈ (g.reachable source now).keys.toFinset := by
  obtain ⟨hu, e, he⟩ := h
  have hu' := (hg.contains_reachable source now u).mpr hu
  rw [List.mem_toFinset, List.mem_toFinset, Table.mem_keys_iff, Table.mem_keys_iff]
  exact ⟨hu', hg.contains_reachable_of_lookup hu' he⟩

theorem Built.worstCycle?_of_acyclic (hg : g.Built) (hacyclic : g.AcyclicWithin source now) :
    g.worstCycle? source (g.reachable source now) now = none := by
  obtain ⟨f, hrise, -⟩ := exists_rank_of_acyclic (fun _ _ => hg.linksWithin_mem) hacyclic
  by_contra hne
  obtain ⟨c, hc⟩ := Option.ne_none_iff_exists'.mp hne
  obtain ⟨hgen, -⟩ := hg.genuine_of_worstCycle? hc
  apply hgen.simple.toClosedWalk.not_rising (f := f)
  intro e he
  exact hrise _ _ ⟨hgen.reaches hg he, e, hgen.simple.live e he⟩

theorem Built.walk_lt_size (hg : g.Built) (hacyclic : g.AcyclicWithin source now) {n : ℕ}
    (hn : 0 < n) {u v : NodeId} (h : StepsIn (g.LinksWithin source now) n u v) :
    n < (g.reachable source now).size := by
  have hcard := h.lt_card (fun _ _ => hg.linksWithin_mem) hacyclic hn
  rw [← Table.length_keys]
  exact hcard.trans_le (List.toFinset_card_le _)

end Graph

/-! ## Settings that can be used -/

theorem Config.bounds_of_flaw? [Arith α] {config : Config α} (h : config.flaw? = none) :
    config.betrayal.minCoverage ≤ 1 ∧ 0 < config.betrayal.maxRounds ∧
      0 < config.betrayal.tolerance := by
  unfold flaw? at h
  dsimp only at h
  split_ifs at h with _ _ hcoverage hrounds htolerance
  exact ⟨hcoverage.2, Nat.pos_of_ne_zero hrounds, htolerance.2.1⟩

/-- Whether a run has diverged. -/
def BeliefOutcome.hasDiverged : BeliefOutcome α → Bool
  | .diverged _ _ _ _ => true
  | _ => false

theorem BeliefOutcome.reason_anomaly_iff [Arith α] [Logarithm α] (settings : BetrayalSettings α)
    (source : NodeId) (outcome : BeliefOutcome α) :
    (outcome.anomaly settings source).reason = .divergence ↔ outcome.hasDiverged = true := by
  cases outcome <;> simp [anomaly, hasDiverged, Anomaly.clean]

namespace Graph

theorem detect_of_covered [Arith α] [Logarithm α] {g : Graph α} {source : NodeId} {now : Instant}
    {settings : BetrayalSettings α}
    (hcycle : g.worstCycle? source (g.reachable source now) now = none)
    (hcovered : ¬ g.coverage source now < settings.minCoverage) :
    g.detect settings source now =
      (g.propagate source (g.reachable source now) now settings.maxRounds
        settings.tolerance).anomaly settings source := by
  rw [detect, hcycle]
  exact if_neg hcovered

/-! ## Findings -/

variable {g : Graph ℚ} {source : NodeId} {now : Instant}

theorem Built.linksWithin_of_tells (hg : g.Built) {u v : NodeId}
    (h : Tells (g.inboxes source (g.reachable source now) now) u v) :
    g.LinksWithin source now u v := by
  obtain ⟨inbox, hi, rfl, m, hm, rfl⟩ := h
  obtain ⟨e, he, hsource, rfl⟩ := mem_messages hi hm
  obtain ⟨htarget, hlive⟩ := hg.mem_incoming_iff.mp he
  rw [← htarget]
  exact ⟨(hg.contains_reachable source now _).mp hsource, e, hlive⟩

theorem Built.exists_walk_of_tells (hg : g.Built) {n : ℕ} (hn : 0 < n) {u v : NodeId}
    (h : StepsIn (Tells (g.inboxes source (g.reachable source now) now)) n u v) :
    ∃ m ≥ n, StepsIn (g.LinksWithin source now) m source v := by
  have hchain : StepsIn (g.LinksWithin source now) n u v :=
    h.mono fun _ _ => hg.linksWithin_of_tells
  obtain ⟨w, hu, -⟩ := hchain.exists_first hn
  obtain ⟨k, hk⟩ := exists_walk_of_reaches hu
  exact ⟨k + n, Nat.le_add_left _ _, hk.trans hchain⟩

/-- **Without a cycle or a missing node only divergence is found**, at the end of a long walk. -/
theorem Built.finding_of_acyclic (hg : g.Built) (hacyclic : g.AcyclicWithin source now)
    (hcoverage : g.coverage source now = 1) {config : Config ℚ} (hvalid : config.flaw? = none)
    [Logarithm ℚ] :
    let bound := config.betrayal.maxRounds
    let finding := g.detect config.betrayal source now
    finding = ⟨source, 0, .none⟩ ∨
      finding.reason = .divergence ∧ 1 < bound ∧ bound < (g.reachable source now).size ∧
        ∃ n ≥ bound, StepsIn (g.LinksWithin source now) n source finding.node := by
  intro bound finding
  obtain ⟨hmin, hbound, htolerance⟩ := Config.bounds_of_flaw? hvalid
  have hfinding : finding = _ :=
    detect_of_covered (hg.worstCycle?_of_acyclic hacyclic) (hcoverage ▸ not_lt.mpr hmin)
  rw [hfinding]
  cases hrun : g.propagate source (g.reachable source now) now bound config.betrayal.tolerance with
  | converged => exact .inl rfl
  | settling => exact .inl rfl
  | diverged v first last rounds =>
    obtain ⟨hrounds, u, hchain⟩ := exists_chain_of_diverged hbound htolerance.le hrun
    obtain ⟨n, hn, hwalk⟩ := hg.exists_walk_of_tells hbound hchain
    have hsize := hg.walk_lt_size hacyclic (hbound.trans_le hn) hwalk
    exact .inr ⟨rfl, hrounds, hn.trans_lt hsize, n, hn, hwalk⟩

section Latecomer

/-- The source distrusts a node that endorses another one, and endorses that other one a little
itself. Its own word is there in the first round, and what follows from its distrust in the second.
-/
def latecomer : Graph ℚ :=
  Graph.empty.addAll
    [⟨0, 1, -1, 0, 0, 3, 100⟩, ⟨1, 2, 1, 0, 0, 3, 100⟩, ⟨0, 2, 1, 0, 0, 0, 100⟩]

theorem latecomer_built : latecomer.Built := Graph.Built.empty.addAll _

theorem latecomer_acyclic : latecomer.AcyclicWithin 0 1 := by
  have hrise : ∀ e ∈ latecomer.liveEdges 1, e.source.toNat < e.target.toNat := by decide +kernel
  exact latecomer_built.acyclicWithin_of_rank 0 hrise

theorem latecomer_coverage : latecomer.coverage 0 1 = 1 := by decide +kernel

/-- With a bound of fifty rounds the source is clean. -/
theorem finding_of_acyclic_latecomer :
    latecomer.Built ∧ latecomer.AcyclicWithin 0 1 ∧ latecomer.coverage 0 1 = 1 ∧
      (Config.default : Config ℚ).flaw? = none ∧
      ∀ [Logarithm ℚ], latecomer.detect Config.default.betrayal 0 1 = ⟨0, 0, .none⟩ := by
  have hvalid : (Config.default : Config ℚ).flaw? = none := by decide +kernel
  have hsize : (latecomer.reachable 0 1).size = 3 := by decide +kernel
  refine ⟨latecomer_built, latecomer_acyclic, latecomer_coverage, hvalid, ?_⟩
  intro _
  rcases latecomer_built.finding_of_acyclic latecomer_acyclic latecomer_coverage hvalid with
    hclean | ⟨-, -, hbound, -⟩
  · exact hclean
  · have hfifty : (Config.default : Config ℚ).betrayal.maxRounds = 50 := rfl
    omega

/-- With a bound of two rounds the last node is found to diverge. -/
theorem acyclic_diverges :
    let config : Config ℚ :=
      { (Config.default : Config ℚ) with
        betrayal := { (Config.default : Config ℚ).betrayal with maxRounds := 2 } }
    latecomer.Built ∧ config.flaw? = none ∧ latecomer.AcyclicWithin 0 1 ∧
      latecomer.coverage 0 1 = 1 ∧
      ∀ [Logarithm ℚ], (latecomer.detect config.betrayal 0 1).reason = .divergence := by
  intro config
  have hvalid : config.flaw? = none := by decide +kernel
  have hdiverged : (latecomer.propagate 0 (latecomer.reachable 0 1) 1 config.betrayal.maxRounds
      config.betrayal.tolerance).hasDiverged = true := by decide +kernel
  have hcovered : ¬ latecomer.coverage 0 1 < config.betrayal.minCoverage := by decide +kernel
  refine ⟨latecomer_built, hvalid, latecomer_acyclic, latecomer_coverage, ?_⟩
  intro _
  rw [detect_of_covered (latecomer_built.worstCycle?_of_acyclic latecomer_acyclic) hcovered,
    BeliefOutcome.reason_anomaly_iff]
  exact hdiverged

end Latecomer

end Graph

end WebOfTrust
