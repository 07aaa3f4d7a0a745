import Mathlib
import WebOfTrust.Proofs.Betrayal.Local

/-!
# Nodes out of reach

Detection looks at the live edges that leave the nodes within reach, and at the reach over all
records. So graphs that look alike from a source give it the same findings, whatever else they hold.

* `Graph.LookAlike`: two graphs look alike from a source;
* `Graph.Built.inboxes_congr`, `Graph.coverageWithin_congr`: the messages and the coverage agree,
  **`LookAlike.detect_eq`**: and so does the finding;
* `Graph.Built.lookAlike_of_records`: they do with the same records of nodes once reachable;
* **`Graph.Built.findings_within_reach`**: what is out of reach makes no difference.
-/

namespace WebOfTrust.Graph

variable {α : Type} [Arith α] {g g' : Graph α} {source : NodeId} {now : Instant}

/-- From a source two graphs look alike at some time: the same live edges leave the nodes within its
reach, and the same nodes were once reachable. -/
structure LookAlike (g g' : Graph α) (source : NodeId) (now : Instant) : Prop where
  outgoing : ∀ u ∈ (g.reachable source now).keys, g.outgoing u now = g'.outgoing u now
  historical : g.historical source = g'.historical source

/-! ## Findings agree -/

theorem LookAlike.lookup_eq (h : g.LookAlike g' source now) (hg : g.Built) (hg' : g'.Built)
    {u : NodeId} (hu : (g.reachable source now).contains u = true) (v : NodeId) :
    g.lookup ⟨u, v⟩ now = g'.lookup ⟨u, v⟩ now := by
  ext e
  rw [hg.lookup_iff_mem_outgoing, hg'.lookup_iff_mem_outgoing,
    h.outgoing u (Table.mem_keys_iff.mpr hu)]

theorem Built.inboxes_congr (hg : g.Built) (hg' : g'.Built) {nodes : KeySet NodeId}
    (h : ∀ u, nodes.contains u = true → ∀ v, g.lookup ⟨u, v⟩ now = g'.lookup ⟨u, v⟩ now) :
    g.inboxes source nodes now = g'.inboxes source nodes now := by
  have hincoming : ∀ v, (g.incoming v now).filter (nodes.contains ·.source) =
      (g'.incoming v now).filter (nodes.contains ·.source) := by
    intro v
    apply eq_of_pairwise_rank (f := fun e => e.source.toNat)
    · exact (hg.pairwise_incoming v now).filter _
    · exact (hg'.pairwise_incoming v now).filter _
    · intro e
      rw [List.mem_filter, List.mem_filter, hg.mem_incoming_iff, hg'.mem_incoming_iff]
      -- Both lists hold edges from other nodes as well, which the filter drops.
      by_cases hsource : nodes.contains e.source = true
      · rw [Edge.arc, h e.source hsource]
      · simp [hsource]
  simp only [inboxes, hincoming]

theorem coverageWithin_congr {nodes : KeySet NodeId}
    (h : g.historical source = g'.historical source) :
    g.coverageWithin source nodes = g'.coverageWithin source nodes := by
  unfold coverageWithin
  rw [h]

/-- **Graphs that look alike from a source are detected alike.** -/
theorem LookAlike.detect_eq [Logarithm α] (h : g.LookAlike g' source now) (hg : g.Built)
    (hg' : g'.Built) (settings : BetrayalSettings α) :
    g.detect settings source now = g'.detect settings source now := by
  have hwithin : ∀ u, (g.reachable source now).contains u = true → ∀ v,
      g.lookup ⟨u, v⟩ now = g'.lookup ⟨u, v⟩ now := fun u hu v => h.lookup_eq hg hg' hu v
  have hreaches : ∀ u, g.Reaches now source u → ∀ v,
      g.lookup ⟨u, v⟩ now = g'.lookup ⟨u, v⟩ now := fun u hu =>
    hwithin u ((hg.contains_reachable source now u).mpr hu)
  have hcycle := hg.worstCycle?_congr hg' hreaches
  rw [← hg.reachable_congr hg' hreaches] at hcycle
  unfold detect propagate
  dsimp only
  rw [← hg.reachable_congr hg' hreaches, hcycle, coverageWithin_congr h.historical,
    hg.inboxes_congr hg' hwithin]

theorem LookAlike.evidence?_eq (h : g.LookAlike g' source now) (hg : g.Built) (hg' : g'.Built) :
    g.evidence? source now = g'.evidence? source now := by
  apply hg.evidence?_congr hg'
  intro u hu v
  exact h.lookup_eq hg hg' ((hg.contains_reachable source now u).mpr hu) v

/-! ## Changes out of reach -/

theorem Built.lookAlike_of_records (hg : g.Built) (hg' : g'.Built)
    (h : ∀ u, g.EverReaches source u → ∀ v, g.record? ⟨u, v⟩ = g'.record? ⟨u, v⟩) (now : Instant) :
    g.LookAlike g' source now where
  outgoing u hu := by
    apply hg.outgoing_congr hg'
    intro v
    have hreach := (hg.contains_reachable source now u).mp (Table.mem_keys_iff.mp hu)
    rw [lookup, lookup, h u hreach.ever]
  historical := by
    apply KeySet.ext_contains
    intro v
    rw [hg.contains_historical, hg'.contains_historical]
    apply reflTransGen_congr
    intro u hu w
    rw [h u hu w]

theorem Built.lookAlike_add (hg : g.Built) {e : Edge α}
    (he : ¬ (g.historical source).contains e.source = true) (now : Instant) :
    g.LookAlike (g.add e).2 source now := by
  apply hg.lookAlike_of_records (hg.add e)
  intro u hu v
  rw [add_snd]
  split_ifs with hf
  · rfl
  · have hne : (⟨u, v⟩ : Arc) ≠ e.arc := by
      intro ha
      have hsource : u = e.source := congrArg Arc.source ha
      apply he
      rw [hg.contains_historical, ← hsource]
      exact hu
    rw [record?_put, if_neg hne]

theorem Built.lookAlike_revoke (hg : g.Built) {a : Arc}
    (ha : ¬ (g.historical source).contains a.source = true) (t now : Instant) :
    g.LookAlike (g.revoke a t).2 source now := by
  apply hg.lookAlike_of_records (hg.revoke a t)
  intro u hu v
  have hne : (⟨u, v⟩ : Arc) ≠ a := by
    rintro rfl
    exact ha ((hg.contains_historical source u).mpr hu)
  rw [record?_revoke, if_neg hne]

/-- **Nodes out of reach take no part in detection**, whatever the arithmetic. -/
theorem Built.findings_within_reach [Logarithm α] (hg : g.Built) (settings : BetrayalSettings α)
    (source : NodeId) (now : Instant) :
    (∀ g', g'.Built → g.LookAlike g' source now →
      g'.detect settings source now = g.detect settings source now ∧
      g'.evidence? source now = g.evidence? source now) ∧
    (∀ e, ¬ (g.historical source).contains e.source = true →
      (g.add e).2.detect settings source now = g.detect settings source now ∧
      (g.add e).2.evidence? source now = g.evidence? source now) ∧
    ∀ a t, ¬ (g.historical source).contains a.source = true →
      (g.revoke a t).2.detect settings source now = g.detect settings source now ∧
      (g.revoke a t).2.evidence? source now = g.evidence? source now := by
  have hsame : ∀ g', g'.Built → g.LookAlike g' source now →
      g'.detect settings source now = g.detect settings source now ∧
      g'.evidence? source now = g.evidence? source now := by
    intro g' hg' h
    exact ⟨(h.detect_eq hg hg' settings).symm, (h.evidence?_eq hg hg').symm⟩
  refine ⟨hsame, fun e he => ?_, fun a t ha => ?_⟩
  · exact hsame _ (hg.add e) (hg.lookAlike_add he now)
  · exact hsame _ (hg.revoke a t) (hg.lookAlike_revoke ha t now)

section Bystanders

/-- A node that trusts another one, which was once trusted by two that betray each other. -/
def bystanders : Graph ℚ :=
  Graph.empty.addAll
    [⟨10, 20, 2 / 5, 0, 0, 3, 100⟩, ⟨30, 40, -1, 0, 0, 3, 100⟩, ⟨40, 30, -1, 0, 0, 3, 100⟩,
      ⟨40, 20, 1, 0, 0, 3, 100⟩]

/-- The same node without the two, and a distrust of the other one by a fifth. -/
def otherBystanders : Graph ℚ :=
  Graph.empty.addAll [⟨10, 20, 2 / 5, 0, 0, 3, 100⟩, ⟨50, 20, -1, 0, 0, 3, 100⟩]

/-- Neither the betrayal nor a new edge nor a revocation among the others is noticed. -/
theorem findings_within_reach_bystanders :
    bystanders.Built ∧ otherBystanders.Built ∧ bystanders.LookAlike otherBystanders 10 1 ∧
      ¬ (bystanders.historical 10).contains 40 = true ∧
      ∀ [Logarithm ℚ],
        otherBystanders.detect Config.default.betrayal 10 1 =
          bystanders.detect Config.default.betrayal 10 1 ∧
        (bystanders.add ⟨40, 10, -1, 0, 0, 3, 100⟩).2.evidence? 10 1 =
          bystanders.evidence? 10 1 ∧
        (bystanders.revoke ⟨40, 20⟩ 1).2.detect Config.default.betrayal 10 1 =
          bystanders.detect Config.default.betrayal 10 1 := by
  have hbuilt : bystanders.Built := Graph.Built.empty.addAll _
  have hother : otherBystanders.Built := Graph.Built.empty.addAll _
  have halike : bystanders.LookAlike otherBystanders 10 1 := by
    have hkeys : (bystanders.reachable 10 1).keys = [10, 20] := by decide +kernel
    have hhistory :
        (bystanders.historical 10).entries = (otherBystanders.historical 10).entries := by
      decide +kernel
    refine ⟨fun u hu => ?_, Table.ext_get? fun k => by rw [Table.get?, Table.get?, hhistory]⟩
    rw [hkeys, List.mem_cons, List.mem_singleton] at hu
    obtain rfl | rfl := hu
    · decide +kernel
    · decide +kernel
  have hout : ¬ (bystanders.historical 10).contains 40 = true := by decide +kernel
  refine ⟨hbuilt, hother, halike, hout, ?_⟩
  intro _
  obtain ⟨hsame, hadd, hrevoke⟩ :=
    hbuilt.findings_within_reach Config.default.betrayal 10 1
  have hdetect := (hsame otherBystanders hother halike).1
  have hevidence := (hadd ⟨40, 10, -1, 0, 0, 3, 100⟩ hout).2
  have hrevoked := (hrevoke ⟨40, 20⟩ 1 hout).1
  exact ⟨hdetect, hevidence, hrevoked⟩

end Bystanders

end WebOfTrust.Graph
