import Mathlib
import WebOfTrust.Proofs.Betrayal.Soundness
import WebOfTrust.Proofs.Graph.Live

/-!
# Evidence is local

The search for negative cycles looks at nothing but the live edges that leave the nodes within
reach, since every cycle that it traces stays there. So graphs that agree on those edges give the
same evidence.

* `Graph.Built.edgesWithin_congr`, `Graph.cycle?_congr`: the edges and the cycles agree;
* `Findings.foldl_step_congr`: so does the last pass, while predecessors are within reach;
* **`Graph.Built.evidence?_congr`**: and so does the evidence.
-/

namespace WebOfTrust

variable {α : Type} {g g' : Graph α} {now : Instant} {nodes : KeySet NodeId}

namespace Graph

theorem lookupAll_congr {arcs : List Arc} (h : ∀ a ∈ arcs, g.lookup a now = g'.lookup a now) :
    g.lookupAll now arcs = g'.lookupAll now arcs := by
  induction arcs with
  | nil => rfl
  | cons a rest ih =>
    rw [lookupAll, lookupAll, h a List.mem_cons_self,
      ih fun b hb => h b (List.mem_cons_of_mem _ hb)]

variable [Arith α]

theorem cycle?_congr {cycle : List NodeId}
    (h : ∀ u ∈ cycle, ∀ v, g.lookup ⟨u, v⟩ now = g'.lookup ⟨u, v⟩ now) :
    g.cycle? cycle now = g'.cycle? cycle now := by
  have hall : g.lookupAll now (cycleArcs cycle) = g'.lookupAll now (cycleArcs cycle) := by
    refine lookupAll_congr fun a ha => h a.source ?_ a.target
    rw [← map_source_cycleArcs cycle]
    exact List.mem_map_of_mem ha
  rw [cycle?, cycle?, hall]

theorem Built.edgesWithin_congr (hg : g.Built) (hg' : g'.Built)
    (h : ∀ u, nodes.contains u = true → ∀ v, g.lookup ⟨u, v⟩ now = g'.lookup ⟨u, v⟩ now) :
    g.edgesWithin nodes now = g'.edgesWithin nodes now := by
  unfold edgesWithin
  refine List.flatMap_congr fun u hu => ?_
  exact hg.outgoing_congr hg' (h u (Table.mem_keys_iff.mp hu))

end Graph

variable [Arith α]

namespace Findings

theorem step_congr (h : ∀ u, nodes.contains u = true → ∀ v, g.lookup ⟨u, v⟩ now =
    g'.lookup ⟨u, v⟩ now) {f : Findings α} {e : Edge α}
    (htarget : nodes.contains e.target = true)
    (hlinked : ∀ s, f.search.relax? e = some s → s.Linked g now nodes) :
    f.step g now nodes.size e = f.step g' now nodes.size e := by
  unfold step
  cases hs : f.search.relax? e with
  | none => rfl
  | some s =>
    dsimp only
    cases ht : traceCycle? s.previous e.target nodes.size with
    | none => rfl
    | some cycle =>
      -- The traced cycle is one of predecessors, which are all within reach.
      obtain ⟨stop, hstop⟩ := exists_stepsBack_of_traceCycle? ht
      obtain ⟨cycle', ht', hcycle, -⟩ := (hlinked s hs).trace htarget hstop
      obtain rfl : cycle = cycle' := Option.some.inj (ht.symm.trans ht')
      have hc : g.cycle? cycle now = g'.cycle? cycle now :=
        Graph.cycle?_congr fun u hu => h u ((hlinked s hs).contains hcycle u hu)
      simp only [enter, hc]

theorem foldl_step_congr (hg : g.Built) (h : ∀ u, nodes.contains u = true → ∀ v,
    g.lookup ⟨u, v⟩ now = g'.lookup ⟨u, v⟩ now) {edges : List (Edge α)}
    (hedges : ∀ e ∈ edges, e ∈ g.edgesWithin nodes now ∧ nodes.contains e.target = true)
    {f : Findings α} (hf : f.search.Linked g now nodes) :
    edges.foldl (step g now nodes.size) f = edges.foldl (step g' now nodes.size) f := by
  induction edges generalizing f with
  | nil => rfl
  | cons e rest ih =>
    obtain ⟨hmem, htarget⟩ := hedges e List.mem_cons_self
    have hlinked : ∀ s, f.search.relax? e = some s → s.Linked g now nodes := fun s hs =>
      hg.keeps_linked e hmem f.search s hf hs
    rw [List.foldl_cons, List.foldl_cons, ← step_congr h htarget hlinked]
    refine ih (fun e' he' => hedges e' (List.mem_cons_of_mem _ he')) ?_
    rcases step_eq g now nodes.size f e with ⟨-, heq⟩ | ⟨s, hs, ⟨-, heq⟩ | ⟨cycle, -, heq⟩⟩
    · rw [heq]
      exact hf
    · rw [heq]
      exact hlinked s hs
    · rw [heq, enter_search]
      exact hlinked s hs

end Findings

namespace Graph

/-- **Graphs whose live edges agree within reach find the same worst cycle.** -/
theorem Built.worstCycle?_congr (hg : g.Built) (hg' : g'.Built) {source : NodeId}
    (h : ∀ u, g.Reaches now source u → ∀ v, g.lookup ⟨u, v⟩ now = g'.lookup ⟨u, v⟩ now) :
    g.worstCycle? source (g.reachable source now) now =
      g'.worstCycle? source (g'.reachable source now) now := by
  have hwithin : ∀ u, (g.reachable source now).contains u = true → ∀ v,
      g.lookup ⟨u, v⟩ now = g'.lookup ⟨u, v⟩ now := fun u hu =>
    h u ((hg.contains_reachable source now u).mp hu)
  rw [← hg.reachable_congr hg' h]
  generalize hnodes : g.reachable source now = nodes at hwithin ⊢
  have hedges := hg.edgesWithin_congr hg' hwithin
  cases hp : Search.passes? (g.edgesWithin nodes now) (nodes.size - 1) (.start source) with
  | none => rw [worstCycle?_eq_none hp, worstCycle?_eq_none (hedges ▸ hp)]
  | some s =>
    rw [worstCycle?_of_passes? hp, worstCycle?_of_passes? (hedges ▸ hp), ← hedges]
    refine congrArg Findings.worst (Findings.foldl_step_congr hg hwithin (fun e he => ⟨he, ?_⟩)
      (Search.passes?_induct hg.keeps_linked (Search.linked_start source) hp))
    obtain ⟨hsource, hlive⟩ := hg.mem_edgesWithin_iff.mp he
    rw [← hnodes] at hsource ⊢
    exact hg.contains_reachable_of_lookup hsource hlive

theorem Built.evidence?_congr (hg : g.Built) (hg' : g'.Built) {node : NodeId}
    (h : ∀ u, g.Reaches now node u → ∀ v, g.lookup ⟨u, v⟩ now = g'.lookup ⟨u, v⟩ now) :
    g.evidence? node now = g'.evidence? node now := by
  unfold evidence?
  rw [hg.worstCycle?_congr hg' h]

end Graph

end WebOfTrust
