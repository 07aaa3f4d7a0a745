import Mathlib
import WebOfTrust.Proofs.Belief.Acyclic
import WebOfTrust.Proofs.Belief.Damping

/-!
# Convergence without cycles

The belief in the source never moves, so an edge into it says nothing that counts. Where the other
live edges within reach run in no cycle, every chain of messages has fewer links than there are
nodes. A belief that moves in some round has a chain of that length behind it, whatever the signs
and the levels of its edges, so no belief moves in the round that has the number of the nodes.

* `Graph.LinksOnward`, `Graph.AcyclicOnward`: live edges within reach that do not enter the source,
  and run in no cycle; `Graph.Built.acyclicOnward_of_rank`: those that all lead up do not;
* `Graph.Built.linksOnward_of_tells`: messages follow such edges;
* `Graph.Built.residual_of_acyclic`: the round that has the number of the nodes moves nothing;
* **`Graph.Built.converges_of_acyclic`**: the run converges by then, to beliefs that stay.
-/

namespace WebOfTrust.Graph

/-! ## Edges that do not enter the source -/

section Onward

variable {α : Type} {source : NodeId} {now : Instant}

/-- A live edge leads from a node within reach of a source to another node, but not to the source.
-/
def LinksOnward (g : Graph α) (source : NodeId) (now : Instant) (u v : NodeId) : Prop :=
  g.LinksWithin source now u v ∧ v ≠ source

/-- The live edges within reach of a source run in no cycle, but for those that enter the source. -/
def AcyclicOnward (g : Graph α) (source : NodeId) (now : Instant) : Prop :=
  ∀ u, ¬ Relation.TransGen (g.LinksOnward source now) u u

theorem Built.acyclicOnward_of_rank [Arith α] {g : Graph α} (hg : g.Built) {f : NodeId → ℕ}
    (hf : ∀ e ∈ g.liveEdges now, e.target ≠ source → f e.source < f e.target) :
    g.AcyclicOnward source now := by
  apply acyclic_of_rank (f := f)
  rintro u v ⟨⟨-, e, he⟩, hv⟩
  obtain ⟨rfl, rfl⟩ := Arc.mk.inj (hg.arc_of_lookup he)
  exact hf e (hg.mem_liveEdges_iff.mpr he) hv

end Onward

/-! ## Convergence -/

variable {g : Graph ℚ} {source : NodeId} {now : Instant} {bound : ℕ} {tolerance : ℚ}

theorem Built.linksOnward_of_tells (hg : g.Built) {u v : NodeId}
    (h : Tells (g.inboxes source (g.reachable source now) now) u v) :
    g.LinksOnward source now u v := by
  refine ⟨hg.linksWithin_of_tells h, ?_⟩
  obtain ⟨inbox, hi, rfl, -⟩ := h
  exact node_ne_source hi

/-- **The round that has the number of the nodes moves nothing.** -/
theorem Built.residual_of_acyclic (hg : g.Built) (hacyclic : g.AcyclicOnward source now) :
    (g.propagation source (g.reachable source now) now bound tolerance
      (g.reachable source now).size).residual ≤ 0 := by
  obtain ⟨n, hn⟩ := Nat.exists_eq_add_of_le' (hg.size_reachable_pos source now)
  -- A move would have a chain behind it with as many links as there are nodes.
  by_contra hmoved
  rw [hn] at hmoved
  obtain ⟨u, hchain⟩ := Propagation.exists_chain_of_residual
    (g.distinct_inboxes source _ now) (not_le.mp hmoved)
  have hwalk := hchain.mono fun _ _ => hg.linksOnward_of_tells
  have hlt := hwalk.lt_card (fun _ _ h => hg.linksWithin_mem h.1) hacyclic (Nat.succ_pos n)
  have hcard : (g.reachable source now).keys.toFinset.card ≤ (g.reachable source now).size := by
    rw [← Table.length_keys]
    exact List.toFinset_card_le _
  omega

/-- **Without cycles a run converges** in at most one round for each node, to steady beliefs. -/
theorem Built.converges_of_acyclic (hg : g.Built) (hacyclic : g.AcyclicOnward source now)
    (hbound : (g.reachable source now).size ≤ bound) (htolerance : 0 < tolerance) :
    let nodes := g.reachable source now
    ∃ rounds beliefs, 0 < rounds ∧ rounds ≤ nodes.size ∧
      g.propagate source nodes now bound tolerance = .converged rounds beliefs ∧
      beliefs.Tabulates nodes (g.trajectory source nodes now rounds) ∧
      g.Steadied source nodes now tolerance beliefs := by
  intro nodes
  have hquiet : (g.propagation source nodes now bound tolerance nodes.size).residual ≤ tolerance :=
    (hg.residual_of_acyclic hacyclic).trans htolerance.le
  obtain ⟨rounds, beliefs, hpos, hle, hrun⟩ :=
    exists_converged (hg.size_reachable_pos source now) hbound hquiet
  obtain ⟨-, hsettled, rfl⟩ := settled_of_converged hrun
  exact ⟨rounds, _, hpos, hle, hrun, (follows_propagation htolerance rounds).tabulates,
    hg.steadied_of_residual htolerance hpos hsettled⟩

section Homeward

/-- Endorsement and distrust along a chain and past it; the last node distrusts the source, and the
source endorses itself. -/
def homeward : Graph ℚ :=
  Graph.empty.addAll
    [⟨0, 1, -1, 0, 0, 3, 100⟩, ⟨1, 2, 1, 0, 0, 3, 100⟩, ⟨0, 2, 1, 0, 0, 0, 100⟩,
      ⟨2, 0, -1, 0, 0, 3, 100⟩, ⟨0, 0, 1, 0, 0, 2, 100⟩]

/-- Three rounds are enough for three nodes, though edges lead back to the source. -/
theorem converges_of_acyclic_homeward :
    let nodes := homeward.reachable 0 1
    homeward.Built ∧ homeward.AcyclicOnward 0 1 ∧ nodes.size = 3 ∧
      (∃ e, homeward.lookup ⟨2, 0⟩ 1 = some e) ∧ (∃ e, homeward.lookup ⟨0, 0⟩ 1 = some e) ∧
      (0 : ℚ) < 1 / 1000000 ∧ ∃ rounds beliefs, rounds ≤ 3 ∧
        homeward.propagate 0 nodes 1 3 (1 / 1000000) = .converged rounds beliefs ∧
        beliefs.Tabulates nodes (homeward.trajectory 0 nodes 1 rounds) ∧
        homeward.Steadied 0 nodes 1 (1 / 1000000) beliefs := by
  intro nodes
  have hbuilt : homeward.Built := Built.empty.addAll _
  have hrise : ∀ e ∈ homeward.liveEdges 1, e.target ≠ 0 → e.source.toNat < e.target.toNat := by
    decide +kernel
  have hacyclic : homeward.AcyclicOnward 0 1 := hbuilt.acyclicOnward_of_rank hrise
  have hsize : nodes.size = 3 := by decide +kernel
  have htolerance : (0 : ℚ) < 1 / 1000000 := by norm_num
  obtain ⟨rounds, beliefs, -, hle, hrun, htabulates, hsteadied⟩ :=
    hbuilt.converges_of_acyclic hacyclic hsize.le htolerance
  refine ⟨hbuilt, hacyclic, hsize, ?_, ?_, htolerance, rounds, beliefs, hle.trans hsize.le, hrun,
    htabulates, hsteadied⟩
  · exact Option.isSome_iff_exists.mp (by decide +kernel)
  · exact Option.isSome_iff_exists.mp (by decide +kernel)

end Homeward

end WebOfTrust.Graph
