import Mathlib
import WebOfTrust.Betrayal.Detect
import WebOfTrust.Betrayal.Evidence
import WebOfTrust.Proofs.Arith.Ordered
import WebOfTrust.Proofs.Belief.Rounds
import WebOfTrust.Proofs.Betrayal.Soundness
import WebOfTrust.Proofs.Betrayal.Relaxation
import WebOfTrust.Proofs.Graph.Live

/-!
# Trust is no anomaly

Over exact rationals a message of an edge that trusts lets the belief in its target grow with the
belief in its source. Beliefs that no mean falls short of therefore rise from round to round, and
the first ones are such: a mean over nodes that are believed in by half is one half.

* `Message.Trusting`, `TrustingInboxes`: messages that trust; `Inbox.mean?_mono`: their means grow
  with the beliefs;
* `Propagation.Rising`: no mean is less than the belief it replaces, which every round preserves;
* `Propagation.Steady`: no move has gone down;
* **`Graph.Built.clean_of_trusting`**: where all edges within reach trust, beliefs rise, nothing
  diverges, no cycle is negative, and detection finds nothing but low coverage.
-/

namespace WebOfTrust

/-- The belief in a node so far. -/
def Beliefs.belief (b : Beliefs ℚ) (v : NodeId) : ℚ := (b.get? v).getD Arith.half

/-! ## Means of trusting messages -/

/-- A message that says more of its target the more its source is believed in. -/
structure Message.Trusting (m : Message ℚ) : Prop where
  truth : 1 / 2 ≤ m.truth
  weight : 0 ≤ m.weight

theorem Message.trusting_ofEdge {e : Edge ℚ} (he : 0 ≤ e.risk) : (Message.ofEdge e).Trusting where
  truth := by
    show (1 : ℚ) / 2 ≤ (1 + e.risk) / ((2 : ℕ) : ℚ)
    push_cast
    linarith
  weight := by
    show (0 : ℚ) ≤ (((min e.level.toNat Edge.maxLevel : ℕ) : ℚ) + 1) / ((Edge.maxLevel : ℚ) + 1)
    positivity

variable {b b' : Beliefs ℚ} {inbox : Inbox ℚ}

theorem Message.opinion_eq (m : Message ℚ) (b : Beliefs ℚ) :
    m.opinion b = 1 / 2 + 2 * (b.belief m.source - 1 / 2) * (m.truth - 1 / 2) := by
  show b.belief m.source * m.truth + (1 - b.belief m.source) * (1 - m.truth) = _
  ring

theorem Message.Trusting.opinion_mono {m : Message ℚ} (hm : m.Trusting)
    (hb : ∀ v, b.belief v ≤ b'.belief v) : m.opinion b ≤ m.opinion b' := by
  have htruth := hm.truth
  have hsource := hb m.source
  rw [Message.opinion_eq, Message.opinion_eq]
  gcongr

theorem Inbox.mean?_eq (inbox : Inbox ℚ) (b : Beliefs ℚ) :
    inbox.mean? b =
      if (inbox.messages.map (·.weight)).sum ≤ 0 then none
      else some ((inbox.messages.map fun m => m.weight * m.opinion b).sum /
        (inbox.messages.map (·.weight)).sum) := by
  rw [List.sum_eq_foldl, List.sum_eq_foldl]
  exact inbox.mean?_eq_foldl b

theorem Inbox.exists_mean? {x : ℚ} (hx : inbox.mean? b = some x) (b' : Beliefs ℚ) :
    ∃ y, inbox.mean? b' = some y := by
  rw [Inbox.mean?_eq] at hx ⊢
  split_ifs at hx ⊢
  exact ⟨_, rfl⟩

theorem Inbox.mean?_mono (hm : ∀ m ∈ inbox.messages, m.Trusting)
    (hb : ∀ v, b.belief v ≤ b'.belief v) {x y : ℚ} (hx : inbox.mean? b = some x)
    (hy : inbox.mean? b' = some y) : x ≤ y := by
  rw [Inbox.mean?_eq] at hx hy
  split_ifs at hx hy with hweight
  obtain rfl := Option.some.inj hx
  obtain rfl := Option.some.inj hy
  refine div_le_div_of_nonneg_right (List.sum_le_sum fun m hmem => ?_) (not_le.mp hweight).le
  exact mul_le_mul_of_nonneg_left ((hm m hmem).opinion_mono hb) (hm m hmem).weight

/-- Of sources that are believed in by half, messages say one half. -/
theorem Inbox.mean?_unknown {x : ℚ} (hx : inbox.mean? Table.empty = some x) : x = 1 / 2 := by
  have hop : ∀ m : Message ℚ, m.opinion Table.empty = 1 / 2 := by
    intro m
    have : Beliefs.belief Table.empty m.source = 1 / 2 := Arith.half_eq
    rw [m.opinion_eq, this]
    ring
  rw [Inbox.mean?_eq] at hx
  split_ifs at hx with hweight
  obtain rfl := Option.some.inj hx
  simp only [hop, List.sum_map_mul_right]
  field_simp [(not_le.mp hweight).ne']

/-- Inboxes of different nodes other than the source, where all messages trust. -/
structure TrustingInboxes (source : NodeId) (inboxes : List (Inbox ℚ)) : Prop where
  distinct : Distinct inboxes
  others : ∀ inbox ∈ inboxes, inbox.node ≠ source
  trusting : ∀ inbox ∈ inboxes, ∀ m ∈ inbox.messages, m.Trusting

/-! ## Rising beliefs -/

namespace Propagation

variable {inboxes : List (Inbox ℚ)} {p : Propagation ℚ} {tolerance : ℚ} {late : Bool}
  {source : NodeId} {nodes : KeySet NodeId}

/-- No mean is less than the belief that it is about to replace. -/
def Rising (inboxes : List (Inbox ℚ)) (p : Propagation ℚ) : Prop :=
  ∀ inbox ∈ inboxes, ∀ x, inbox.mean? p.beliefs = some x → p.beliefs.belief inbox.node ≤ x

theorem belief_initial_of_ne {v : NodeId} (hv : v ≠ source) :
    (initialBeliefs source nodes).belief v = 1 / 2 := by
  rw [Beliefs.belief, get?_initialBeliefs, if_neg hv, ← Arith.half_eq]
  split_ifs <;> rfl

theorem half_le_belief_initial (source : NodeId) (nodes : KeySet NodeId) (v : NodeId) :
    1 / 2 ≤ (initialBeliefs source nodes).belief v := by
  rw [Beliefs.belief, get?_initialBeliefs, Arith.half_eq]
  split_ifs <;> norm_num

theorem rising_start (ht : TrustingInboxes source inboxes) :
    Rising inboxes (start source nodes) := by
  intro inbox hi x hx
  have hle : ∀ v, Beliefs.belief Table.empty v ≤ (initialBeliefs source nodes).belief v :=
    fun v => Arith.half_eq.trans_le (half_le_belief_initial source nodes v)
  obtain ⟨y, hy⟩ := Inbox.exists_mean? hx Table.empty
  show (initialBeliefs source nodes).belief inbox.node ≤ x
  calc (initialBeliefs source nodes).belief inbox.node
      = 1 / 2 := belief_initial_of_ne (ht.others inbox hi)
    _ = y := (Inbox.mean?_unknown hy).symm
    _ ≤ x := Inbox.mean?_mono (ht.trusting inbox hi) hle hy hx

theorem belief_round_of_mean? (hd : Distinct inboxes) {inbox : Inbox ℚ} (hi : inbox ∈ inboxes)
    {x : ℚ} (hx : inbox.mean? p.beliefs = some x) :
    (p.round tolerance late inboxes).beliefs.belief inbox.node = x := by
  rw [Beliefs.belief, beliefs_round_of_mean? hd hi hx]
  rfl

theorem Rising.le_round (h : Rising inboxes p) (hd : Distinct inboxes) (v : NodeId) :
    p.beliefs.belief v ≤ (p.round tolerance late inboxes).beliefs.belief v := by
  by_cases hv : ∀ inbox ∈ inboxes, inbox.node = v → inbox.mean? p.beliefs = none
  · rw [Beliefs.belief, Beliefs.belief, beliefs_round_of_still hv]
  · push Not at hv
    obtain ⟨inbox, hi, rfl, hne⟩ := hv
    obtain ⟨x, hx⟩ := Option.ne_none_iff_exists'.mp hne
    rw [belief_round_of_mean? hd hi hx]
    exact h inbox hi x hx

theorem Rising.exists_le_round (h : Rising inboxes p) (hd : Distinct inboxes) {v : NodeId} {x : ℚ}
    (hx : p.beliefs.get? v = some x) :
    ∃ y, (p.round tolerance late inboxes).beliefs.get? v = some y ∧ x ≤ y := by
  have hsome : ((p.round tolerance late inboxes).beliefs.get? v).isSome = true :=
    isSome_beliefs_round hd (Option.isSome_of_eq_some hx)
  obtain ⟨y, hy⟩ := Option.isSome_iff_exists.mp hsome
  have hle : p.beliefs.belief v ≤ (p.round tolerance late inboxes).beliefs.belief v :=
    h.le_round hd v
  rw [Beliefs.belief, Beliefs.belief, hx, hy] at hle
  exact ⟨y, hy, hle⟩

/-- **Rising beliefs keep rising**: all sources of a message are believed in no less than before. -/
theorem Rising.round (h : Rising inboxes p) (ht : TrustingInboxes source inboxes) :
    Rising inboxes (p.round tolerance late inboxes) := by
  intro inbox hi y hy
  obtain ⟨x, hx⟩ := Inbox.exists_mean? hy p.beliefs
  rw [belief_round_of_mean? ht.distinct hi hx]
  exact Inbox.mean?_mono (ht.trusting inbox hi) (h.le_round ht.distinct) hx hy

/-! ## Steady directions -/

/-- No move has gone down, so no belief has reversed its direction. -/
structure Steady (p : Propagation ℚ) : Prop where
  onward : p.reversed = false
  upward : ∀ v down, p.falling.get? v = some down → down = false

theorem steady_start : Steady (start source nodes) where
  onward := rfl
  upward v down h := by cases h

theorem Steady.turn (h : Steady p) {m : Move ℚ} (hm : 0 ≤ m.change) :
    Steady (p.turn tolerance late m) := by
  have hup : decide (m.change < 0) = false := decide_eq_false (not_lt.mpr hm)
  unfold Propagation.turn
  split
  next =>
    refine ⟨?_, fun v down hv => ?_⟩
    · dsimp only
      rw [h.onward, Bool.false_or]
      -- The last direction of the node was up as well, if it has moved before.
      cases hbefore : p.falling.get? m.node with
      | none => rfl
      | some before =>
        rw [h.upward _ _ hbefore, hup]
        rfl
    · rw [Table.get?_insert] at hv
      split_ifs at hv with hnode
      · exact (Option.some.inj hv).symm.trans hup
      · exact h.upward v down hv
  next => exact h

theorem Steady.foldl_turn {l : List (Move ℚ)} (h : Steady p) (hm : ∀ m ∈ l, 0 ≤ m.change) :
    Steady (l.foldl (Propagation.turn tolerance late) p) := by
  induction l generalizing p with
  | nil => exact h
  | cons m rest ih =>
    obtain ⟨hfirst, hrest⟩ := List.forall_mem_cons.mp hm
    exact ih (h.turn hfirst) hrest

theorem Rising.change_nonneg (h : Rising inboxes p) {m : Move ℚ} (hm : m ∈ moves inboxes p) :
    0 ≤ m.change := by
  obtain ⟨inbox, hi, x, hx, rfl⟩ := exists_mean?_of_mem_moves hm
  exact sub_nonneg.mpr (h inbox hi x hx)

theorem Steady.round (hs : Steady p) (h : Rising inboxes p) :
    Steady (p.round tolerance late inboxes) := by
  have hturned : Steady ((moves inboxes p).foldl (Propagation.turn tolerance late) p) :=
    hs.foldl_turn fun m hm => h.change_nonneg hm
  exact ⟨hturned.onward, hturned.upward⟩

theorem rising_after (ht : TrustingInboxes source inboxes) (bound n : ℕ) :
    Rising inboxes (after inboxes bound tolerance (start source nodes) n) := by
  induction n with
  | zero => exact rising_start ht
  | succ n ih => exact ih.round ht

theorem steady_after (ht : TrustingInboxes source inboxes) (bound n : ℕ) :
    Steady (after inboxes bound tolerance (start source nodes) n) := by
  induction n with
  | zero => exact steady_start
  | succ n ih => exact ih.round (rising_after ht bound n)

end Propagation

/-! ## Graphs of trust -/

theorem BeliefOutcome.anomaly_of_ne_diverged [Logarithm ℚ] (settings : BetrayalSettings ℚ)
    (source : NodeId) {outcome : BeliefOutcome ℚ}
    (h : ∀ node first last rounds, outcome ≠ .diverged node first last rounds) :
    outcome.anomaly settings source = .clean source := by
  cases outcome with
  | converged => rfl
  | settling => rfl
  | diverged node first last rounds => exact absurd rfl (h node first last rounds)

namespace Graph

variable {g : Graph ℚ} {source : NodeId} {now : Instant} {nodes : KeySet NodeId}

theorem node_ne_source {inbox : Inbox ℚ} (hi : inbox ∈ g.inboxes source nodes now) :
    inbox.node ≠ source := by
  obtain ⟨v, hv, rfl⟩ := List.mem_map.mp hi
  exact of_decide_eq_true (List.mem_filter.mp hv).2

theorem mem_messages {inbox : Inbox ℚ} (hi : inbox ∈ g.inboxes source nodes now) {m : Message ℚ}
    (hm : m ∈ inbox.messages) : ∃ e ∈ g.incoming inbox.node now,
      nodes.contains e.source = true ∧ m = .ofEdge e := by
  obtain ⟨v, -, rfl⟩ := List.mem_map.mp hi
  obtain ⟨e, he, rfl⟩ := List.mem_map.mp hm
  exact ⟨e, (List.mem_filter.mp he).1, (List.mem_filter.mp he).2, rfl⟩

/-- Every live edge that leaves a node within reach of a source trusts its target. -/
def TrustingWithin (g : Graph ℚ) (source : NodeId) (now : Instant) : Prop :=
  ∀ u v e, g.Reaches now source u → g.lookup ⟨u, v⟩ now = some e → 0 ≤ e.risk

theorem Built.trustingInboxes (hg : g.Built) (htrust : g.TrustingWithin source now) :
    TrustingInboxes source (g.inboxes source (g.reachable source now) now) where
  distinct := g.distinct_inboxes source _ now
  others _ hi := node_ne_source hi
  trusting inbox hi m hm := by
    obtain ⟨e, he, hsource, rfl⟩ := mem_messages hi hm
    have hlive := (hg.mem_incoming_iff.mp he).2
    have hreach := (hg.contains_reachable source now _).mp hsource
    exact Message.trusting_ofEdge (htrust e.source e.target e hreach hlive)

theorem Built.worstCycle?_of_trusting (hg : g.Built) (htrust : g.TrustingWithin source now) :
    g.worstCycle? source (g.reachable source now) now = none := by
  by_contra hne
  obtain ⟨c, hc⟩ := Option.ne_none_iff_exists'.mp hne
  obtain ⟨hgen, hneg⟩ := hg.genuine_of_worstCycle? hc
  refine hneg ?_
  rw [hgen.total, foldl_risk]
  refine List.sum_nonneg fun x hx => ?_
  obtain ⟨e, he, rfl⟩ := List.mem_map.mp hx
  exact htrust e.source e.target e (hgen.reaches hg he) (hgen.simple.live e he)

theorem propagate_of_trusting
    (ht : TrustingInboxes source (g.inboxes source nodes now)) (bound : ℕ) (tolerance : ℚ)
    (node : NodeId) (first last : ℚ) (rounds : ℕ) :
    g.propagate source nodes now bound tolerance ≠ .diverged node first last rounds := by
  have hsteady : (g.propagation source nodes now bound tolerance bound).Steady :=
    Propagation.steady_after ht bound bound
  rcases g.propagate_ends source nodes now bound tolerance with ⟨k, -, -, -, -, h⟩ | ⟨-, h⟩
  · rw [h]
    exact nofun
  · rw [h, hsteady.onward, if_neg Bool.false_ne_true]
    exact nofun

/-- **Mutual trust is no anomaly**: beliefs rise, and nothing is found but low coverage. -/
theorem Built.clean_of_trusting (hg : g.Built) (htrust : g.TrustingWithin source now) :
    let nodes := g.reachable source now
    (∀ bound tolerance n v x,
      (g.propagation source nodes now bound tolerance n).beliefs.get? v = some x →
      ∃ y, (g.propagation source nodes now bound tolerance (n + 1)).beliefs.get? v = some y ∧
        x ≤ y) ∧
    (∀ bound tolerance node first last rounds,
      g.propagate source nodes now bound tolerance ≠ .diverged node first last rounds) ∧
    g.worstCycle? source nodes now = none ∧ g.evidence? source now = none ∧
    ∀ [Logarithm ℚ] (settings : BetrayalSettings ℚ),
      g.detect settings source now =
        if g.coverage source now < settings.minCoverage then
          ⟨source, Arith.clampUnit (1 - g.coverage source now), .lowCoverage⟩
        else ⟨source, 0, .none⟩ := by
  intro nodes
  have ht := hg.trustingInboxes htrust
  have hcycle := hg.worstCycle?_of_trusting htrust
  refine ⟨fun bound tolerance n v x hx => ?_, propagate_of_trusting ht, hcycle, ?_,
    fun settings => ?_⟩
  · exact (Propagation.rising_after ht bound n).exists_le_round ht.distinct hx
  · rw [evidence?, hcycle]
  · rw [detect, hcycle]
    refine if_congr Iff.rfl rfl ?_
    exact BeliefOutcome.anomaly_of_ne_diverged settings source (propagate_of_trusting ht _ _)

section MutualTrust

/-- A ring of three nodes, an edge from a node to itself and one back; a node out of reach betrays
the first. -/
def mutualTrust : Graph ℚ :=
  Graph.empty.addAll
    [⟨1, 2, 1 / 2, 0, 0, 3, 100⟩, ⟨2, 3, 1, 0, 0, 1, 100⟩, ⟨3, 1, 0, 0, 0, 2, 100⟩,
      ⟨3, 3, 1, 0, 0, 3, 100⟩, ⟨2, 1, 3 / 4, 0, 0, 0, 100⟩, ⟨7, 1, -1, 0, 0, 3, 100⟩]

/-- The ring is clean. -/
theorem clean_of_trusting_mutualTrust :
    mutualTrust.Built ∧ mutualTrust.TrustingWithin 1 5 ∧
      (mutualTrust.edgesWithin (mutualTrust.reachable 1 5) 5).length = 5 ∧
      mutualTrust.evidence? 1 5 = none ∧
      ∀ [Logarithm ℚ], mutualTrust.detect Config.default.betrayal 1 5 = ⟨1, 0, .none⟩ := by
  have hbuilt : mutualTrust.Built := Graph.Built.empty.addAll _
  have hrisks : ∀ e ∈ mutualTrust.edgesWithin (mutualTrust.reachable 1 5) 5, 0 ≤ e.risk := by
    decide +kernel
  have htrust : mutualTrust.TrustingWithin 1 5 := by
    intro u v e hu he
    have harc := hbuilt.arc_of_lookup he
    have hsource : e.source = u := congrArg Arc.source harc
    refine hrisks e (hbuilt.mem_edgesWithin_iff.mpr ⟨?_, harc ▸ he⟩)
    exact (hbuilt.contains_reachable 1 5 _).mpr (hsource ▸ hu)
  obtain ⟨-, -, -, hevidence, hdetect⟩ := hbuilt.clean_of_trusting htrust
  refine ⟨hbuilt, htrust, by decide +kernel, hevidence, ?_⟩
  intro _
  rw [hdetect, if_neg (by decide +kernel)]

end MutualTrust

end Graph

end WebOfTrust
