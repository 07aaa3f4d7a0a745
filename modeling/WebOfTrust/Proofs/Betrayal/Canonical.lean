import WebOfTrust.Proofs.Betrayal.Completeness

/-!
# Evidence is canonical

Two searches may come upon one cycle at different nodes and by different ways. As a cycle is listed
from its least node on, they find the same edges in the same order all the same. Over exact
rationals, the evidence from all nodes that have a single negative cycle within reach, the same for
all, is therefore the same.

* **`Cycle.Genuine.eq_of_isRotated`**: whatever the arithmetic, genuine cycles with the same edges,
  but for a turn, are the same;
* `Graph.OnlyNegative`: a single negative cycle within reach;
  `Graph.Built.exists_genuine_of_onlyNegative`: the worst cycle is that one;
  `Graph.OnlyNegative.tied`: so none is worse than the evidence;
* **`Graph.Built.evidence_canonical`**: the evidence from two nodes with the same single negative
  cycle within reach.
-/

namespace WebOfTrust

/-! ## Turned cycles -/

variable {α : Type} [Arith α]

/-- **Genuine cycles with the same edges, but for a turn, are the same.** -/
theorem Cycle.Genuine.eq_of_isRotated {g g' : Graph α} {now now' : Instant}
    {nodes nodes' : KeySet NodeId} {c c' : Cycle α} (hc : c.Genuine g now nodes)
    (hc' : c'.Genuine g' now' nodes') (h : c.edges ~r c'.edges) : c = c' := by
  have hnodes : c.nodes ~r c'.nodes := by
    rw [← hc.sources, ← hc'.sources]
    exact h.map _
  have hedges : c.edges = c'.edges := by
    refine eq_of_isRotated_of_head? h hc.simple.simple ?_
    rw [hc.sources, hc'.sources]
    exact head?_eq_of_least hnodes hc.least hc'.least
  obtain ⟨cnodes, edges, total⟩ := c
  obtain ⟨cnodes', edges', total'⟩ := c'
  obtain rfl : edges = edges' := hedges
  obtain rfl : cnodes = cnodes' := hc.sources.symm.trans hc'.sources
  obtain rfl : total = total' := hc.total.trans hc'.total.symm
  rfl

/-! ## A single negative cycle -/

variable {g : Graph ℚ} {now : Instant} {source a b : NodeId} {cycle : List (Edge ℚ)}

/-- A simple cycle of live edges within reach of a source whose risks add up to less than zero, and
there is no other one, but for where its list begins. -/
structure Graph.OnlyNegative (g : Graph ℚ) (now : Instant) (source : NodeId)
    (cycle : List (Edge ℚ)) : Prop where
  simple : g.SimpleCycle now cycle
  within : ∀ e ∈ cycle, g.Reaches now source e.source
  negative : (cycle.map (·.risk)).sum < 0
  unique : ∀ other, g.SimpleCycle now other → (∀ e ∈ other, g.Reaches now source e.source) →
    (other.map (·.risk)).sum < 0 → other ~r cycle

theorem Graph.OnlyNegative.tied (h : g.OnlyNegative now source cycle) : g.Tied now source := by
  intro other other' hother hother' hreach hreach' hneg hneg'
  have hturned := (h.unique _ hother hreach hneg).trans (h.unique _ hother' hreach' hneg').symm
  exact (hturned.perm.map _).sum_eq

/-- **The worst cycle is the only negative one**, if that is worse than its slack. -/
theorem Graph.Built.exists_genuine_of_onlyNegative (hg : g.Built)
    (h : g.OnlyNegative now source cycle)
    (hrisk : (cycle.map (·.risk)).sum < -(cycle.length * Search.slack)) :
    ∃ c, g.worstCycle? source (g.reachable source now) now = some c ∧
      c.Genuine g now (g.reachable source now) ∧ c.edges ~r cycle := by
  obtain ⟨c, hc⟩ :=
    hg.exists_worstCycle_of_closedWalk h.simple.toClosedWalk h.within hrisk
  obtain ⟨hgenuine, hneg⟩ := hg.genuine_of_worstCycle? hc
  refine ⟨c, hc, hgenuine, h.unique _ hgenuine.simple (fun e he => hgenuine.reaches hg he) ?_⟩
  rw [← foldl_risk, ← hgenuine.total]
  exact not_le.mp hneg

/-- **Evidence is canonical** for nodes with the same single negative cycle within reach. -/
theorem Graph.Built.evidence_canonical (hg : g.Built) (ha : g.OnlyNegative now a cycle)
    (hb : g.OnlyNegative now b cycle)
    (hrisk : (cycle.map (·.risk)).sum < -(cycle.length * Search.slack)) :
    ∃ e f, g.evidence? a now = some e ∧ g.evidence? b now = some f ∧
      e.edges ~r cycle ∧ e.total = (cycle.map (·.risk)).sum ∧
      e.edges = f.edges ∧ e.total = f.total ∧
      g.NoneWorse now a e.total ∧ g.NoneWorse now b f.total ∧
      ∀ [WordForm ℚ], e.encode = f.encode ∧ ∀ hash, e.digest hash = f.digest hash := by
  obtain ⟨c, hc, hgenuine, hturned⟩ := hg.exists_genuine_of_onlyNegative ha hrisk
  obtain ⟨c', hc', hgenuine', hturned'⟩ := hg.exists_genuine_of_onlyNegative hb hrisk
  obtain rfl : c = c' := hgenuine.eq_of_isRotated hgenuine' (hturned.trans hturned'.symm)
  have htotal : c.total = (cycle.map (·.risk)).sum := by
    rw [hgenuine.total, foldl_risk]
    exact (hturned.perm.map _).sum_eq
  exact ⟨⟨a, c.edges, c.total⟩, ⟨b, c.edges, c.total⟩,
    Graph.evidence?_eq_some_iff.mpr ⟨c, hc, rfl⟩, Graph.evidence?_eq_some_iff.mpr ⟨c, hc', rfl⟩,
    hturned, htotal, rfl, rfl, hg.noneWorse_of_tied ha.tied hc, hg.noneWorse_of_tied hb.tied hc',
    rfl, fun _ => rfl⟩

section Downstream

/-- A node betrays another one, which trusts it. -/
def betraying : Edge ℚ := ⟨5, 9, -1, 0, 0, 3, 100⟩

@[inherit_doc betraying]
def trusting : Edge ℚ := ⟨9, 5, 1 / 2, 0, 0, 3, 100⟩

/-- The two nodes, and a third one upstream of them. -/
def downstream : Graph ℚ := Graph.empty.addAll [⟨2, 9, 1, 0, 0, 3, 100⟩, betraying, trusting]

theorem downstream_built : downstream.Built := Graph.Built.empty.addAll _

theorem isRotated_of_downstream {cycle : List (Edge ℚ)} (h : downstream.SimpleCycle 1 cycle)
    (hreach : ∀ e ∈ cycle, downstream.Reaches 1 2 e.source) : cycle ~r [betraying, trusting] := by
  have hlist : downstream.edgesWithin (downstream.reachable 2 1) 1 =
      [⟨2, 9, 1, 0, 0, 3, 100⟩, betraying, trusting] := by decide +kernel
  have htarget : ∀ v ∈ cycle.map (·.source), v ∈ cycle.map (·.target) := by
    intro v hv
    rwa [h.joined, List.mem_rotate]
  have hcases : ∀ e ∈ cycle, e = ⟨2, 9, 1, 0, 0, 3, 100⟩ ∨ e = betraying ∨ e = trusting := by
    intro e he
    have hwithin := (downstream_built.contains_reachable 2 1 e.source).mpr (hreach e he)
    have hmem := downstream_built.mem_edgesWithin_iff.mpr ⟨hwithin, h.live e he⟩
    rwa [hlist, List.mem_cons, List.mem_cons, List.mem_singleton] at hmem
  -- No edge leads to the third node, so the cycle does not leave it.
  have hedges : ∀ e ∈ cycle, e = betraying ∨ e = trusting := by
    intro e he
    rcases hcases e he with rfl | he
    · obtain ⟨f, hf, hft⟩ := List.mem_map.mp (htarget 2 (List.mem_map_of_mem he))
      rcases hcases f hf with rfl | rfl | rfl <;> exact absurd hft (by decide)
    · exact he
  have hsubset : cycle ⊆ [betraying, trusting] := fun e he => by simpa using hedges e he
  have hlength := (List.subperm_of_subset (h.simple.of_map _) hsubset).length_le
  rcases cycle with _ | ⟨e, _ | ⟨f, _ | ⟨k, rest⟩⟩⟩
  · exact absurd rfl h.nonempty
  · rcases hedges e (by simp) with rfl | rfl <;> exact absurd h.joined (by decide)
  · rcases hedges e (by simp) with rfl | rfl <;> rcases hedges f (by simp) with rfl | rfl
    · exact absurd h.simple (by decide)
    · exact .refl _
    · exact ⟨1, rfl⟩
    · exact absurd h.simple (by decide)
  · simp only [List.length_cons, List.length_nil] at hlength
    omega

theorem onlyNegative_downstream {source : NodeId} (hup : downstream.Reaches 1 2 source)
    (h : ∀ e ∈ [betraying, trusting], (downstream.reachable source 1).contains e.source = true) :
    downstream.OnlyNegative 1 source [betraying, trusting] where
  simple := ⟨⟨by decide, by decide +kernel, by decide⟩, by decide⟩
  within e he := (downstream_built.contains_reachable source 1 e.source).mp (h e he)
  negative := by norm_num [betraying, trusting]
  unique _ hother hreach _ := isRotated_of_downstream hother fun e he => hup.trans (hreach e he)

/-- The third node and the one that is not the least on the cycle get the same evidence. -/
theorem evidence_canonical_downstream :
    ∃ e f, downstream.evidence? 2 1 = some e ∧ downstream.evidence? 9 1 = some f ∧
      e.edges ~r [betraying, trusting] ∧ e.edges = f.edges ∧ e.total = f.total := by
  have hup : downstream.Reaches 1 2 9 :=
    (downstream_built.contains_reachable 2 1 9).mp (by decide +kernel)
  have hrisk : ([betraying, trusting].map (·.risk)).sum <
      -(([betraying, trusting].length : ℕ) * Search.slack) := by
    norm_num [betraying, trusting, Search.slack, Arith.ratio]
  obtain ⟨e, f, he, hf, hturned, -, hedges, htotal, -⟩ := downstream_built.evidence_canonical
    (onlyNegative_downstream .refl (by decide +kernel))
    (onlyNegative_downstream hup (by decide +kernel)) hrisk
  exact ⟨e, f, he, hf, hturned, hedges, htotal⟩

end Downstream

end WebOfTrust
