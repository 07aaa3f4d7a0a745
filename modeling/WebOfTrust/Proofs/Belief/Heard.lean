import Mathlib
import WebOfTrust.Proofs.Belief.Trajectory
import WebOfTrust.Proofs.Belief.Trusting
import WebOfTrust.Proofs.Edge.Weight
import WebOfTrust.Proofs.Graph.Live

/-!
# Nodes within reach are heard of

The last step of a live walk to a node is a live edge from another node within reach, and it says
something of the node. So among the nodes within reach of a source something of weight is said of
each but the source, and every round renews the belief in it.

* `Graph.Built.voices_ne_nil`: the last step to a node within reach;
* `Inbox.Heard`: what is said of a node has weight; **`Graph.Built.heard_of_mem_inboxes`**;
* `Inbox.Heard.mean?_eq`, `Inbox.Heard.get?_round`: a round renews the belief in such a node.
-/

namespace WebOfTrust

variable {source v : NodeId} {now : Instant}

/-! ## The last step -/

/-- **Of a node within reach other than the source, a node within reach says something.** -/
theorem Graph.Built.voices_ne_nil {α : Type} [Arith α] {g : Graph α} (hg : g.Built)
    (hv : (g.reachable source now).contains v = true) (hne : v ≠ source) :
    g.voices (g.reachable source now) now v ≠ [] := by
  rcases ((hg.contains_reachable source now v).mp hv).cases_tail with heq | ⟨u, hu, e, he⟩
  · exact absurd heq hne
  · have hsource : e.source = u := congrArg Arc.source (hg.arc_of_lookup he)
    have hwithin : (g.reachable source now).contains e.source = true := by
      rw [hsource]
      exact (hg.contains_reachable source now u).mpr hu
    exact List.ne_nil_of_mem (List.mem_filter.mpr ⟨hg.mem_incoming_of_lookup he, hwithin⟩)

/-! ## Messages with weight -/

/-- Something of weight is said of a node. -/
structure Inbox.Heard (inbox : Inbox ℚ) : Prop where
  messages : inbox.messages ≠ []
  weight : 0 < (inbox.messages.map (·.weight)).sum

/-- **Of all nodes within reach but the source something of weight is said.** -/
theorem Graph.Built.heard_of_mem_inboxes {g : Graph ℚ} (hg : g.Built) {inbox : Inbox ℚ}
    (hi : inbox ∈ g.inboxes source (g.reachable source now) now) : inbox.Heard := by
  obtain ⟨v, hv, hne, rfl⟩ := mem_inboxes_iff.mp hi
  have hvoices := hg.voices_ne_nil hv hne
  have hweights : (((g.voices (g.reachable source now) now v).map Message.ofEdge).map (·.weight)) =
      (g.voices (g.reachable source now) now v).map Edge.levelWeight := List.map_map ..
  constructor
  case messages => exact fun hnil => hvoices (List.map_eq_nil_iff.mp hnil)
  case weight =>
    rw [hweights]
    refine List.sum_pos _ (fun w hw => ?_) fun hnil => hvoices (List.map_eq_nil_iff.mp hnil)
    obtain ⟨e, -, rfl⟩ := List.mem_map.mp hw
    exact e.levelWeight_pos

theorem Graph.map_node_inboxes {α : Type} [Arith α] (g : Graph α) (source : NodeId)
    (nodes : KeySet NodeId) (now : Instant) :
    (g.inboxes source nodes now).map (·.node) = nodes.keys.filter (· ≠ source) := by
  rw [inboxes, List.map_map]
  exact List.map_id _

namespace Inbox.Heard

variable {inbox : Inbox ℚ}

theorem mean?_eq (h : inbox.Heard) (b : Beliefs ℚ) : inbox.mean? b =
    some ((inbox.messages.map fun m => m.weight * m.opinion b).sum /
      (inbox.messages.map (·.weight)).sum) := by
  rw [Inbox.mean?_eq, if_neg (not_le.mpr h.weight)]

theorem get?_round (h : inbox.Heard) {inboxes : List (Inbox ℚ)} (hd : Distinct inboxes)
    (hi : inbox ∈ inboxes) (p : Propagation ℚ) (tolerance : ℚ) (late : Bool) :
    ∃ x, inbox.mean? p.beliefs = some x ∧
      (p.round tolerance late inboxes).beliefs.get? inbox.node = some x :=
  ⟨_, h.mean?_eq p.beliefs, Propagation.beliefs_round_of_mean? hd hi (h.mean?_eq p.beliefs)⟩

end Inbox.Heard

end WebOfTrust
