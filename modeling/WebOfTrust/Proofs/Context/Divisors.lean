import Mathlib
import WebOfTrust.Proofs.Belief.Heard
import WebOfTrust.Proofs.Betrayal.Scores
import WebOfTrust.Proofs.Context.Reached
import WebOfTrust.Proofs.Reputation.Monotone

/-!
# Divisors are positive

Scoring and detection are carried out once more with a check before each division, that the divisor
is above zero, and before each difference of times, that it does not fall below zero; in rounds of
belief propagation no node is passed over. No check ever fails, and the results are the same. The
constants that are written as quotients of two numbers are taken as they are.

* `Checked.div`, `Checked.sub`: the checks;
* `Checked.recency_eq`, `Checked.reputation_eq`, `Checked.coverageWithin_eq`,
  `Checked.cycleScore_eq`, `Checked.propagate_eq`, `Checked.divergenceScore_eq`,
  `Checked.detect_eq`: the functions with their checks, each with the reason why none fails;
* **`Context.Reached.divisors_pos`**: all of it in the contexts that are reached.
-/

namespace WebOfTrust

namespace Checked

variable {α : Type} [Arith α]

/-! ## Checks -/

/-- The quotient by a divisor above zero. -/
def div (x y : α) : Option α := if 0 < y then some (x / y) else none

/-- The time from an instant to a later one. -/
def sub (later earlier : Instant) : Option Instant :=
  if earlier ≤ later then some (later - earlier) else none

theorem div_eq {x y : ℚ} (h : 0 < y) : div x y = some (x / y) := if_pos h

theorem sub_eq {later earlier : Instant} (h : earlier ≤ later) :
    sub later earlier = some (later - earlier) := if_pos h

/-! ## Edges -/

@[inherit_doc Edge.levelWeight]
def levelWeight (e : Edge α) : Option α :=
  div ((min e.level.toNat Edge.maxLevel : Nat) + 1 : α) ((Edge.maxLevel : α) + 1)

@[inherit_doc Edge.recency]
def recency (now : Instant) (e : Edge α) : Option α :=
  if now ≤ e.timestamp then some 1
  else if e.expiration ≤ now then some 0
  else do
    let lifetime ← sub e.expiration e.timestamp
    let remaining ← sub e.expiration now
    let part ← div (remaining.toNat : α) (lifetime.toNat : α)
    return Arith.clampUnit part

theorem levelWeight_eq (e : Edge ℚ) : levelWeight e = some e.levelWeight :=
  div_eq (show (0 : ℚ) < (Edge.maxLevel : ℚ) + 1 by positivity)

/-- Between the two guards the time lies within the life of an edge, whatever the edge. -/
theorem recency_eq (now : Instant) (e : Edge ℚ) : recency now e = some (e.recency now) := by
  unfold recency Edge.recency
  split_ifs with hfresh hexpired
  · rfl
  · rfl
  · have hbegun : e.timestamp < now := UInt64.not_le.mp hfresh
    have hahead : now < e.expiration := UInt64.not_le.mp hexpired
    have hlife : e.timestamp < e.expiration := UInt64.lt_trans hbegun hahead
    have hlifetime : (0 : ℚ) < ((e.expiration - e.timestamp).toNat : ℕ) := by
      rw [UInt64.toNat_sub_of_le _ _ (UInt64.le_of_lt hlife)]
      exact Nat.cast_pos.mpr (Nat.sub_pos_of_lt (UInt64.lt_iff_toNat_lt.mp hlife))
    rw [sub_eq (UInt64.le_of_lt hlife), sub_eq (UInt64.le_of_lt hahead)]
    simp only [Option.bind_eq_bind, Option.bind_some, div_eq hlifetime]
    rfl

/-! ## Reputation -/

@[inherit_doc Tally.add]
def add (now : Instant) (t : Tally α) (e : Edge α) : Option (Tally α) := do
  let level ← levelWeight e
  let recency ← recency now e
  let weight := level * recency
  return ⟨t.edges + 1, t.weightedRisk + weight * e.risk, t.weight + weight⟩

@[inherit_doc Graph.reputation]
def reputation (g : Graph α) (settings : ReputationSettings α) (node : NodeId) (now : Instant) :
    Option (Reputation α) := do
  let t ← (g.incoming node now).foldlM (add now) Tally.zero
  if t.edges = 0 then return ⟨node, Arith.half, t.edges, t.weight⟩
  else
    let mean ← div t.weightedRisk (settings.priorWeight + t.weight)
    let score ← div (1 + mean) ((2 : Nat) : α)
    return ⟨node, Arith.clampUnit score, t.edges, t.weight⟩

theorem add_eq (now : Instant) :
    (add now : Tally ℚ → Edge ℚ → _) = fun t e => some (t.add now e) := by
  funext t e
  rw [add, levelWeight_eq, recency_eq]
  rfl

theorem reputation_eq (g : Graph ℚ) {settings : ReputationSettings ℚ}
    (hprior : 0 < settings.priorWeight) (node : NodeId) (now : Instant) :
    reputation g settings node now = some (g.reputation settings node now) := by
  have htally : (g.incoming node now).foldlM (add now) Tally.zero = some (g.tally node now) := by
    rw [add_eq]
    exact List.foldlM_pure
  have htotal := g.priorWeight_add_pos node now hprior
  unfold reputation Graph.reputation
  rw [htally]
  simp only [Option.bind_eq_bind, Option.bind_some]
  split_ifs
  · rfl
  · rw [div_eq htotal]
    rfl

/-! ## Coverage and cycles -/

@[inherit_doc Graph.coverageWithin]
def coverageWithin (g : Graph α) (source : NodeId) (nodes : KeySet NodeId) : Option α :=
  let expected := g.historical source
  let expectedPeers := (expected.keys.filter (· ≠ source)).length
  if expectedPeers = 0 then some 1
  else
    let livePeers := (nodes.keys.filter fun n => n ≠ source ∧ expected.contains n).length
    div (livePeers : α) (expectedPeers : α)

@[inherit_doc Graph.coverage]
def coverage (g : Graph α) (source : NodeId) (now : Instant) : Option α :=
  coverageWithin g source (g.reachable source now)

@[inherit_doc WebOfTrust.cycleScore]
def cycleScore (magnitude critical : α) : Option α :=
  let top : α := Anomaly.criticalScore
  if critical ≤ magnitude then do
    let excess ← div (magnitude - critical) critical
    return Arith.clampUnit (top + (1 - top) * Arith.atMostOne excess)
  else do
    let part ← div (top * magnitude) critical
    return Arith.clampUnit part

theorem coverageWithin_eq (g : Graph ℚ) (source : NodeId) (nodes : KeySet NodeId) :
    coverageWithin g source nodes = some (g.coverageWithin source nodes) := by
  unfold coverageWithin Graph.coverageWithin
  dsimp only
  split_ifs with hnone
  · rfl
  · exact div_eq (Nat.cast_pos.mpr (Nat.pos_of_ne_zero hnone))

theorem cycleScore_eq {critical : ℚ} (hcritical : 0 < critical) (magnitude : ℚ) :
    cycleScore magnitude critical = some (WebOfTrust.cycleScore magnitude critical) := by
  unfold cycleScore WebOfTrust.cycleScore
  dsimp only
  split_ifs
  · rw [div_eq hcritical]
    rfl
  · rw [div_eq hcritical]
    rfl

/-! ## Belief propagation -/

@[inherit_doc Message.ofEdge]
def message (e : Edge α) : Option (Message α) := do
  let truth ← div (1 + e.risk) ((2 : Nat) : α)
  let weight ← levelWeight e
  return ⟨e.source, truth, weight⟩

@[inherit_doc Graph.inboxes]
def inboxes (g : Graph α) (source : NodeId) (nodes : KeySet NodeId) (now : Instant) :
    Option (List (Inbox α)) :=
  (nodes.keys.filter (· ≠ source)).mapM fun node => do
    let messages ← ((g.incoming node now).filter (nodes.contains ·.source)).mapM message
    return ⟨node, messages⟩

/-- The mean of the messages about a node, which are taken to have weight. -/
def mean (beliefs : Beliefs α) (inbox : Inbox α) : Option α :=
  let sums := inbox.messages.foldl
    (fun (sums : α × α) m => (sums.1 + m.weight * m.opinion beliefs, sums.2 + m.weight)) (0, 0)
  div sums.1 sums.2

/-- The new belief in a node, which is not passed over. -/
def move (beliefs : Beliefs α) (inbox : Inbox α) : Option (Move α) := do
  let x ← mean beliefs inbox
  return ⟨inbox.node, x, x - (beliefs.get? inbox.node).getD Arith.half⟩

@[inherit_doc Propagation.round]
def round (tolerance : α) (late : Bool) (inboxes : List (Inbox α)) (p : Propagation α) :
    Option (Propagation α) := do
  let moves ← inboxes.mapM (move p.beliefs)
  let (residual, worst) := largestMove p.worst moves
  return { moves.foldl (Propagation.turn tolerance late) p with
    beliefs := moves.foldl (fun b m => b.insert m.node m.belief) p.beliefs
    residual := residual
    worst := worst }

@[inherit_doc Propagation.rounds]
def rounds (inboxes : List (Inbox α)) (bound : Nat) (tolerance : α) :
    (left : Nat) → (first : Option α) → Propagation α → Option (BeliefOutcome α)
  | 0, first, p =>
    if p.reversed then some (.diverged p.worst (first.getD p.residual) p.residual bound)
    else some (.settling bound p.residual p.beliefs)
  | left + 1, first, p => do
    let p ← round tolerance (bound / 2 < bound - left) inboxes p
    if p.residual ≤ tolerance then return .converged (bound - left) p.beliefs
    else rounds inboxes bound tolerance left (some (first.getD p.residual)) p

@[inherit_doc Graph.propagate]
def propagate (g : Graph α) (source : NodeId) (nodes : KeySet NodeId) (now : Instant) (bound : Nat)
    (tolerance : α) : Option (BeliefOutcome α) := do
  let inboxes ← inboxes g source nodes now
  rounds inboxes bound tolerance bound none (Propagation.start source nodes)

theorem mapM_eq_filterMap {β γ : Type} {f g : β → Option γ} {l : List β}
    (h : ∀ x ∈ l, ∃ y, f x = some y ∧ g x = some y) : l.mapM f = some (l.filterMap g) := by
  induction l with
  | nil => rfl
  | cons x rest ih =>
    obtain ⟨⟨y, hf, hg⟩, hrest⟩ := List.forall_mem_cons.mp h
    rw [List.mapM_cons, hf, ih hrest, List.filterMap_cons, hg]
    rfl

theorem message_eq : (message : Edge ℚ → _) = fun e => some (Message.ofEdge e) := by
  funext e
  have htwo : (0 : ℚ) < (2 : ℕ) := Nat.cast_pos.mpr two_pos
  rw [message, levelWeight_eq]
  simp only [Option.bind_eq_bind, Option.bind_some]
  exact (congrArg (Option.bind · _) (div_eq htwo)).trans rfl

theorem inboxes_eq (g : Graph ℚ) (source : NodeId) (nodes : KeySet NodeId) (now : Instant) :
    inboxes g source nodes now = some (g.inboxes source nodes now) := by
  have hmessages (l : List (Edge ℚ)) : l.mapM message = some (l.map Message.ofEdge) := by
    rw [message_eq]
    exact List.mapM_pure
  unfold inboxes
  simp only [hmessages]
  exact List.mapM_pure

theorem move_eq {inbox : Inbox ℚ} (h : inbox.Heard) (b : Beliefs ℚ) :
    ∃ m, move b inbox = some m ∧ inbox.move? b = some m := by
  have hpos : 0 < (inbox.messages.map (·.weight)).foldl (· + ·) 0 := by
    rw [← List.sum_eq_foldl]
    exact h.weight
  have hmean : mean b inbox = some ((inbox.messages.map fun m => m.weight * m.opinion b).sum /
      (inbox.messages.map (·.weight)).sum) := by
    rw [mean, foldl_pair, List.sum_eq_foldl, List.sum_eq_foldl]
    exact div_eq hpos
  refine ⟨_, ?_, Inbox.move?_eq_some (h.mean?_eq b)⟩
  rw [move, hmean]
  rfl

theorem round_eq {inboxes : List (Inbox ℚ)} (h : ∀ inbox ∈ inboxes, inbox.Heard) (tolerance : ℚ)
    (late : Bool) (p : Propagation ℚ) :
    round tolerance late inboxes p = some (p.round tolerance late inboxes) := by
  have hmoves : inboxes.mapM (move p.beliefs) = some (inboxes.filterMap (·.move? p.beliefs)) :=
    mapM_eq_filterMap fun inbox hi => move_eq (h inbox hi) p.beliefs
  rw [round, hmoves]
  rfl

theorem rounds_eq {inboxes : List (Inbox ℚ)} (h : ∀ inbox ∈ inboxes, inbox.Heard) (bound : ℕ)
    (tolerance : ℚ) (left : ℕ) (first : Option ℚ) (p : Propagation ℚ) :
    rounds inboxes bound tolerance left first p =
      some (Propagation.rounds inboxes bound tolerance left first p) := by
  induction left generalizing first p with
  | zero =>
    unfold rounds Propagation.rounds
    split_ifs <;> rfl
  | succ left ih =>
    unfold rounds Propagation.rounds
    rw [round_eq h]
    simp only [Option.bind_eq_bind, Option.bind_some]
    split_ifs
    · rfl
    · exact ih _ _

theorem propagate_eq {g : Graph ℚ} (hg : g.Built) (source : NodeId) (now : Instant) (bound : ℕ)
    (tolerance : ℚ) : propagate g source (g.reachable source now) now bound tolerance =
      some (g.propagate source (g.reachable source now) now bound tolerance) := by
  rw [propagate, inboxes_eq]
  exact rounds_eq (fun inbox hi => hg.heard_of_mem_inboxes hi) _ _ _ _ _

/-! ## Detection -/

section Detection

variable [Logarithm α]

@[inherit_doc WebOfTrust.divergenceScore]
def divergenceScore (first last tolerance : α) : Option α :=
  if last ≤ tolerance then some 0
  else do
    let start ← div first tolerance
    let span := Logarithm.ln start
    if span ≤ 0 ∨ first ≤ last then return 1
    else
      let left ← div last tolerance
      let part ← div (Logarithm.ln left) span
      return Arith.clampUnit part

@[inherit_doc Cycle.anomaly]
def cycleAnomaly (settings : BetrayalSettings α) (source : NodeId) (c : Cycle α) :
    Option (Anomaly α) := do
  let score ← cycleScore (Arith.magnitude c.total) settings.criticalMagnitude
  return ⟨if source ∈ c.nodes then source else c.nodes.headD source, score, .negativeCycle⟩

@[inherit_doc BeliefOutcome.anomaly]
def beliefAnomaly (settings : BetrayalSettings α) (source : NodeId) :
    BeliefOutcome α → Option (Anomaly α)
  | .converged _ _ => some (.clean source)
  | .settling _ _ _ => some (.clean source)
  | .diverged node first last _ => do
    let score ← divergenceScore first last settings.tolerance
    return ⟨node, score, .divergence⟩

@[inherit_doc Graph.detect]
def detect (g : Graph α) (settings : BetrayalSettings α) (source : NodeId) (now : Instant) :
    Option (Anomaly α) :=
  let nodes := g.reachable source now
  match g.worstCycle? source nodes now with
  | some c => cycleAnomaly settings source c
  | none => do
    let coverage ← coverageWithin g source nodes
    if coverage < settings.minCoverage then
      return ⟨source, Arith.clampUnit (1 - coverage), .lowCoverage⟩
    else
      let outcome ← propagate g source nodes now settings.maxRounds settings.tolerance
      beliefAnomaly settings source outcome

end Detection

section Exact

variable [Logarithm ℚ]

theorem divergenceScore_eq {tolerance : ℚ} (htolerance : 0 < tolerance) (first last : ℚ) :
    divergenceScore first last tolerance =
      some (WebOfTrust.divergenceScore first last tolerance) := by
  unfold divergenceScore WebOfTrust.divergenceScore
  rw [div_eq htolerance, div_eq htolerance]
  simp only [Option.bind_eq_bind, Option.bind_some]
  split_ifs with hsettled hspan
  · rfl
  · rfl
  · rw [div_eq (not_le.mp fun h => hspan (.inl h))]
    rfl

theorem detect_eq {g : Graph ℚ} (hg : g.Built) {settings : BetrayalSettings ℚ}
    (hcritical : 0 < settings.criticalMagnitude) (htolerance : 0 < settings.tolerance)
    (source : NodeId) (now : Instant) :
    detect g settings source now = some (g.detect settings source now) := by
  unfold detect Graph.detect
  dsimp only
  cases g.worstCycle? source (g.reachable source now) now with
  | some c =>
    simp only [cycleAnomaly, cycleScore_eq hcritical]
    rfl
  | none =>
    simp only [coverageWithin_eq, propagate_eq hg, Option.bind_eq_bind, Option.bind_some]
    split_ifs
    · rfl
    · cases g.propagate source (g.reachable source now) now settings.maxRounds
          settings.tolerance with
      | converged rounds b => rfl
      | settling rounds residual b => rfl
      | diverged v first last rounds =>
        rw [beliefAnomaly, divergenceScore_eq htolerance]
        rfl

end Exact

end Checked

/-! ## Contexts that are reached -/

theorem Config.priorWeight_pos {config : Config ℚ} (h : config.flaw? = none) :
    0 < config.reputation.priorWeight := by
  unfold flaw? at h
  dsimp only at h
  split_ifs at h with hprior
  exact hprior.2

namespace Context

/-- **No divisor is zero and no difference of times is below zero** in a context that is reached. -/
theorem Reached.divisors_pos [Logarithm ℚ] {c : Context ℚ} (hc : c.Reached)
    (hvalid : c.config.flaw? = none) :
    (∀ (e : Edge ℚ) (now : Instant), Checked.levelWeight e = some e.levelWeight ∧
      Checked.recency now e = some (e.recency now)) ∧
    (∀ node now, Checked.reputation c.graph c.config.reputation node now =
      some (c.graph.reputation c.config.reputation node now)) ∧
    (∀ source now, Checked.coverage c.graph source now = some (c.graph.coverage source now)) ∧
    (∀ source now, Checked.detect c.graph c.config.betrayal source now =
      some (c.graph.detect c.config.betrayal source now)) ∧
    (∀ magnitude, Checked.cycleScore magnitude c.config.betrayal.criticalMagnitude =
      some (cycleScore magnitude c.config.betrayal.criticalMagnitude)) ∧
    (∀ (nodes : List NodeId) (i : ℕ) (u : NodeId), nodes[i]? = some u → 0 < nodes.length ∧
      ∃ v, nodes[(i + 1) % nodes.length]? = some v ∧ (cycleArcs nodes)[i]? = some ⟨u, v⟩) ∧
    ∀ source now,
      let nodes := c.graph.reachable source now
      let inboxes := c.graph.inboxes source nodes now
      inboxes.map (·.node) = nodes.keys.filter (· ≠ source) ∧
      ∀ inbox ∈ inboxes, inbox.messages ≠ [] ∧ 0 < (inbox.messages.map (·.weight)).sum ∧
        ∀ (p : Propagation ℚ) (tolerance : ℚ) (late : Bool), ∃ x,
          inbox.mean? p.beliefs = some x ∧
            (p.round tolerance late inboxes).beliefs.get? inbox.node = some x := by
  have hg := hc.graph_built
  have hprior := Config.priorWeight_pos hvalid
  have hcritical := Config.criticalMagnitude_pos hvalid
  obtain ⟨-, -, htolerance⟩ := Config.bounds_of_flaw? hvalid
  refine ⟨fun e now => ⟨Checked.levelWeight_eq e, Checked.recency_eq now e⟩,
    Checked.reputation_eq c.graph hprior, fun _ _ => Checked.coverageWithin_eq _ _ _,
    Checked.detect_eq hg hcritical htolerance, Checked.cycleScore_eq hcritical,
    fun _ _ _ => getElem?_cycleArcs, fun source now => ⟨Graph.map_node_inboxes _ _ _ _, ?_⟩⟩
  intro inbox hi
  have hheard := hg.heard_of_mem_inboxes hi
  exact ⟨hheard.messages, hheard.weight, hheard.get?_round (Graph.distinct_inboxes _ _ _ _) hi⟩

section Chain

/-- A chain of two edges, of which the second is the shorter-lived. -/
def chain : List (Operation ℚ) :=
  [.add ⟨1, 2, 1 / 2, 0, 0, 3, 100⟩, .add ⟨2, 3, -1 / 2, 10, 0, 1, 50⟩]

/-- In the middle of the life of both edges the nodes behind the first one are heard of. -/
theorem divisors_pos_chain :
    let _ := Graph.aboveOne
    let c := ((ofConfig Identity.preferred (Config.default : Config ℚ) 0).run chain).2
    c.Reached ∧ c.config.flaw? = none ∧ (c.graph.reachable 1 40).keys = [1, 2, 3] ∧
    (∀ inbox ∈ c.graph.inboxes 1 (c.graph.reachable 1 40) 40, inbox.messages ≠ []) ∧
    Checked.detect c.graph c.config.betrayal 1 40 =
      some (c.graph.detect c.config.betrayal 1 40) := by
  intro _ c
  have hreached : c.Reached := (Reached.start Identity.preferred Config.default 0).run chain
  have hvalid : c.config.flaw? = none := by decide +kernel
  have hkeys : (c.graph.reachable 1 40).keys = [1, 2, 3] := by decide +kernel
  obtain ⟨-, -, -, hdetect, -, -, hheard⟩ := hreached.divisors_pos hvalid
  exact ⟨hreached, hvalid, hkeys, fun inbox hi => ((hheard 1 40).2 inbox hi).1, hdetect 1 40⟩

end Chain

end Context

end WebOfTrust
