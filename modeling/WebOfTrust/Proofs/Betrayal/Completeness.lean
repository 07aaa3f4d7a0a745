import WebOfTrust.Proofs.Betrayal.Phases
import WebOfTrust.Proofs.Betrayal.Worst

/-!
# Negative cycles are found

Over exact rationals a walk of live edges that ends where it begins, lies within reach and is worse
than its slack keeps every pass from settling. The last pass therefore relaxes an edge, traces a
cycle of predecessors, and such cycles are negative.

* `Search.Tight`: the edge from a predecessor explains the distance of a node;
* `Search.Falling`: cycles of predecessors are negative, since tight predecessors stay so;
* **`Graph.Built.exists_negative_of_residual`**: each relaxation of the last pass finds one;
* **`Graph.Built.detect_of_closedWalk`**: a closed walk worse than its slack is detected.
-/

namespace WebOfTrust

variable {g : Graph ℚ} {now : Instant} {nodes : KeySet NodeId} {source : NodeId}

/-! ## Cycles of predecessors are negative -/

namespace Search

/-- The live edge from a predecessor leads to no more than the distance of its node. -/
def Tight (g : Graph ℚ) (now : Instant) (s : Search ℚ) : Prop :=
  ∀ v u, s.previous.get? v = some u → ∃ e d known, g.lookup ⟨u, v⟩ now = some e ∧
    s.distance.get? u = some d ∧ s.distance.get? v = some known ∧ d + e.risk ≤ known

/-- Cycles of predecessors are negative by more than the slack. -/
def Falling (g : Graph ℚ) (now : Instant) (s : Search ℚ) : Prop :=
  ∀ cycle edges, PredecessorCycle s.previous cycle →
    g.lookupAll now (cycleArcs cycle) = some edges → (edges.map (·.risk)).sum < -slack

theorem tight_start (source : NodeId) : Tight g now (start source) := by
  intro v u h
  cases h

theorem falling_start (source : NodeId) : Falling g now (start source) := by
  intro cycle edges h _
  obtain ⟨v, hv⟩ := List.exists_mem_of_ne_nil _ h.nonempty
  rw [← map_source_cycleArcs cycle, List.mem_map] at hv
  obtain ⟨a, ha, -⟩ := hv
  cases h.linked a ha

variable {s s' : Search ℚ} {e : Edge ℚ}

theorem Falling.total_lt (h : s.Falling g now) {cycle : List NodeId} {c : Cycle ℚ}
    (hcycle : PredecessorCycle s.previous cycle) (hc : g.cycle? cycle now = some c) :
    c.total < -slack := by
  obtain ⟨edges, hedges, rfl⟩ := Graph.cycle?_eq_some_iff.mp hc
  have hsum := h cycle edges hcycle hedges
  rwa [← foldl_risk] at hsum

theorem Tight.relax (h : s.Tight g now) (hlive : g.lookup e.arc now = some e)
    (he : s.relax? e = some s') : s'.Tight g now := by
  obtain ⟨x, hx, hdist, hprev⟩ := relax?_spec he
  obtain ⟨d, hd, rfl, hlt⟩ := offer?_spec hx
  intro v u hv
  rw [hprev] at hv
  split_ifs at hv with hvt
  · -- The source may be the target itself, whose distance has just gone down.
    cases hv
    obtain ⟨d', hd', hle⟩ := exists_le_of_relax he hd
    rw [hvt]
    exact ⟨e, d', d + e.risk, hlive, hd', by rw [hdist, if_pos rfl], by linarith⟩
  · obtain ⟨f, du, known, hf, hdu, hknown, hle⟩ := h v u hv
    obtain ⟨du', hdu', hle'⟩ := exists_le_of_relax he hdu
    exact ⟨f, du', known, hf, hdu', by rw [hdist, if_neg hvt, hknown], by linarith⟩

theorem Tight.exists_distance (h : s.Tight g now) {v u : NodeId}
    (hv : s.previous.get? v = some u) : ∃ d, s.distance.get? u = some d := by
  obtain ⟨_, d, _, _, hd, _⟩ := h v u hv
  exact ⟨d, hd⟩

theorem Tight.level_le (h : s.Tight g now) {f : Edge ℚ} (hlive : g.lookup f.arc now = some f)
    (hf : s.previous.get? f.target = some f.source) :
    s.level f.source + f.risk - s.level f.target ≤ 0 := by
  obtain ⟨f', d, known, hf', hd, hknown, hle⟩ := h _ _ hf
  obtain rfl : f = f' := Option.some.inj (hlive.symm.trans hf')
  rw [level_eq hd, level_eq hknown]
  linarith

theorem sum_lt_of_mem {l : List ℚ} {x c : ℚ} (hl : ∀ y ∈ l, y ≤ 0) (hx : x ∈ l) (hc : x < c) :
    l.sum < c := by
  obtain ⟨l₁, l₂, rfl⟩ := List.append_of_mem hx
  have hnonpos : ∀ l' : List ℚ, (∀ y ∈ l', y ≤ 0) → l'.sum ≤ 0 := by
    intro l' hl'
    have := List.sum_le_card_nsmul l' 0 hl'
    rwa [smul_zero] at this
  have h₁ := hnonpos l₁ fun y hy => hl y (by simp [hy])
  have h₂ := hnonpos l₂ fun y hy => hl y (by simp [hy])
  rw [List.sum_append, List.sum_cons]
  linarith

theorem predecessorCycle_of_relax (he : s.relax? e = some s') {cycle : List NodeId}
    (h : PredecessorCycle s'.previous cycle) (hv : e.target ∉ cycle) :
    PredecessorCycle s.previous cycle where
  nonempty := h.nonempty
  nodup := h.nodup
  linked a ha := by
    obtain ⟨-, -, -, hprev⟩ := relax?_spec he
    have hne : a.target ≠ e.target := by
      intro hat
      have htarget := List.mem_map_of_mem (f := Arc.target) ha
      rw [map_target_cycleArcs, List.mem_rotate, hat] at htarget
      exact hv htarget
    have := h.linked a ha
    rwa [hprev, if_neg hne] at this

/-- An edge of a cycle of predecessors is the one just relaxed, or was one of it before. -/
theorem eq_or_previous_of_relax (hlive : g.lookup e.arc now = some e) (he : s.relax? e = some s')
    {f : Edge ℚ} (hf : g.lookup f.arc now = some f)
    (hprevious : s'.previous.get? f.target = some f.source) :
    f = e ∨ f.target ≠ e.target ∧ s.previous.get? f.target = some f.source := by
  obtain ⟨-, -, -, hprev⟩ := relax?_spec he
  rw [hprev] at hprevious
  split_ifs at hprevious with hft
  · have harc : f.arc = e.arc := by
      rw [Edge.arc, Edge.arc, hft, Option.some.inj hprevious]
    rw [harc, hlive] at hf
    exact .inl (Option.some.inj hf).symm
  · exact .inr ⟨hft, hprevious⟩

/-- A relaxation closes none but negative cycles. -/
theorem Falling.relax (hg : g.Built) (h : s.Falling g now) (ht : s.Tight g now)
    (hlive : g.lookup e.arc now = some e) (he : s.relax? e = some s') : s'.Falling g now := by
  obtain ⟨x, hx, -⟩ := relax?_spec he
  obtain ⟨d, hd, rfl, hlt⟩ := offer?_spec hx
  intro cycle edges hcycle hedges
  by_cases hv : e.target ∈ cycle
  · obtain ⟨harcs, hall⟩ := hg.lookupAll_eq_some_iff.mp hedges
    obtain ⟨hsimple, hsources⟩ := hg.simpleCycle_of_lookupAll hcycle.nonempty hcycle.nodup hedges
    have hcases : ∀ f ∈ edges,
        f = e ∨ f.target ≠ e.target ∧ s.previous.get? f.target = some f.source := by
      intro f hf
      refine eq_or_previous_of_relax hlive he (hall f hf) (hcycle.linked f.arc ?_)
      rw [← harcs]
      exact List.mem_map_of_mem hf
    -- The cycle leaves the target, so a distance of it was known.
    obtain ⟨known, hknown⟩ : ∃ known, s.distance.get? e.target = some known := by
      rw [← hsources, List.mem_map] at hv
      obtain ⟨f, hf, hfs⟩ := hv
      rw [← hfs]
      rcases hcases f hf with rfl | ⟨-, hprevious⟩
      · exact ⟨d, hd⟩
      · exact ht.exists_distance hprevious
    have hfall : s.level e.source + e.risk - s.level e.target < -slack := by
      rw [level_eq hd, level_eq hknown]
      linarith [hlt known hknown]
    have hmem : e ∈ edges := by
      rw [← hsources, ← List.mem_rotate (n := 1), ← hsimple.joined, List.mem_map] at hv
      obtain ⟨f, hf, hft⟩ := hv
      rcases hcases f hf with rfl | ⟨hne, -⟩
      · exact hf
      · exact absurd hft hne
    -- Measured by the distances, no other edge of the cycle rises.
    rw [← hsimple.sum_reduced s.level]
    refine sum_lt_of_mem (fun y hy => ?_) (List.mem_map_of_mem hmem) hfall
    obtain ⟨f, hf, rfl⟩ := List.mem_map.mp hy
    rcases hcases f hf with rfl | ⟨-, hprevious⟩
    · linarith [slack_pos]
    · exact ht.level_le (hall f hf) hprevious
  · exact h cycle edges (predecessorCycle_of_relax he hcycle hv) hedges

end Search

theorem Graph.Built.keeps_falling (hg : g.Built) :
    Search.Keeps (g.edgesWithin nodes now) fun s => s.Tight g now ∧ s.Falling g now := by
  intro e he s s' ⟨ht, hf⟩ hr
  have hlive := (hg.mem_edgesWithin_iff.mp he).2
  exact ⟨ht.relax hlive hr, hf.relax hg ht hlive hr⟩

/-- **Every relaxation of the last pass finds a negative cycle**, by more than the slack. -/
theorem Graph.Built.exists_negative_of_residual (hg : g.Built) {r : Search ℚ × NodeId}
    (hr : r ∈ g.residuals source (g.reachable source now) now) :
    ∃ c, Findings.Traced g now (g.reachable source now).size r c ∧
      c.total < -Search.slack := by
  obtain ⟨c, hc, hcycle⟩ := hg.exists_traced_of_residual hr
  obtain ⟨⟨-, hfalling⟩, -⟩ := Graph.residuals_induct hg.keeps_falling
    ⟨Search.tight_start source, Search.falling_start source⟩ r hr
  exact ⟨c, hc, hfalling.total_lt hcycle hc.2⟩

theorem Graph.Built.exists_worstCycle_of_residual (hg : g.Built) {r : Search ℚ × NodeId}
    (hr : r ∈ g.residuals source (g.reachable source now) now) :
    ∃ c, g.worstCycle? source (g.reachable source now) now = some c := by
  obtain ⟨c, hc, hneg⟩ := hg.exists_negative_of_residual hr
  obtain ⟨w, hw, -⟩ := Graph.worstCycle?_le hr hc (Search.neg_of_lt_slack hneg)
  exact ⟨w, hw⟩

/-! ## Closed walks are found -/

theorem Search.keeps_isSome (edges : List (Edge ℚ)) (source : NodeId) :
    Search.Keeps edges fun s => (s.distance.get? source).isSome = true := by
  intro e _ s s' hs hr
  obtain ⟨d, hd⟩ := Option.isSome_iff_exists.mp hs
  obtain ⟨d', hd', -⟩ := Search.exists_le_of_relax hr hd
  rw [hd']
  rfl

/-- **A closed walk that is worse than its slack keeps the last pass from settling.** -/
theorem Graph.Built.residuals_ne_nil_of_closedWalk (hg : g.Built) {walk : List (Edge ℚ)}
    (hwalk : g.ClosedWalk now walk) (hreach : ∀ e ∈ walk, g.Reaches now source e.source)
    (hrisk : (walk.map (·.risk)).sum < -(walk.length * Search.slack)) :
    g.residuals source (g.reachable source now) now ≠ [] := by
  refine Graph.residuals_ne_nil (Search.keeps_isSome _ source) ?_ fun s hs hnil => ?_
  · rw [Search.start, Table.get?_insert, if_pos rfl]
    rfl
  · have hsettled : s.Settled (g.edgesWithin (g.reachable source now) now) source :=
      ⟨hs, Search.residuals_eq_nil_iff.mp hnil⟩
    exact absurd hrisk (not_lt.mpr (hsettled.risk_ge hg hwalk hreach))

theorem Graph.Built.exists_worstCycle_of_closedWalk (hg : g.Built) {walk : List (Edge ℚ)}
    (hwalk : g.ClosedWalk now walk) (hreach : ∀ e ∈ walk, g.Reaches now source e.source)
    (hrisk : (walk.map (·.risk)).sum < -(walk.length * Search.slack)) :
    ∃ c, g.worstCycle? source (g.reachable source now) now = some c := by
  obtain ⟨r, hr⟩ :=
    List.exists_mem_of_ne_nil _ (hg.residuals_ne_nil_of_closedWalk hwalk hreach hrisk)
  exact hg.exists_worstCycle_of_residual hr

/-- **A closed walk within reach that is worse than its slack is detected**, by a genuine cycle. -/
theorem Graph.Built.detect_of_closedWalk (hg : g.Built) {walk : List (Edge ℚ)}
    (hwalk : g.ClosedWalk now walk) (hreach : ∀ e ∈ walk, g.Reaches now source e.source)
    (hrisk : (walk.map (·.risk)).sum < -(walk.length * Search.slack)) :
    let nodes := g.reachable source now
    (∃ c, g.worstCycle? source nodes now = some c ∧ c.Genuine g now nodes ∧ c.total < 0 ∧
      g.evidence? source now = some ⟨source, c.edges, c.total⟩) ∧
    ∀ [Logarithm ℚ] (settings : BetrayalSettings ℚ),
      (g.detect settings source now).reason = .negativeCycle := by
  intro nodes
  obtain ⟨w, hw⟩ := hg.exists_worstCycle_of_closedWalk hwalk hreach hrisk
  obtain ⟨hgenuine, hneg⟩ := hg.genuine_of_worstCycle? hw
  have hevidence : g.evidence? source now = some ⟨source, w.edges, w.total⟩ :=
    Graph.evidence?_eq_some_iff.mpr ⟨w, hw, rfl⟩
  refine ⟨⟨w, hw, hgenuine, not_le.mp hneg, hevidence⟩, fun settings => ?_⟩
  refine (Graph.detect_reason_iff settings source).mpr ?_
  rw [hevidence]
  rfl

section SelfBetrayal

/-- An edge from a node to itself. -/
def selfLoop : Edge ℚ := ⟨9, 9, -1, 0, 0, 3, 100⟩

/-- The loop, and an edge that leads to it. -/
def selfBetrayal : Graph ℚ := Graph.empty.addAll [⟨2, 9, 1, 0, 0, 3, 100⟩, selfLoop]

/-- The loop is detected from the node before it. -/
theorem detect_of_closedWalk_selfBetrayal :
    selfBetrayal.ClosedWalk 1 [selfLoop] ∧ (∀ e ∈ [selfLoop], selfBetrayal.Reaches 1 2 e.source) ∧
      ∃ c : Cycle ℚ, c.Genuine selfBetrayal 1 (selfBetrayal.reachable 2 1) ∧ c.total < 0 ∧
        selfBetrayal.evidence? 2 1 = some ⟨2, c.edges, c.total⟩ := by
  have hbuilt : selfBetrayal.Built := Graph.Built.empty.addAll _
  have hwalk : selfBetrayal.ClosedWalk 1 [selfLoop] := ⟨by decide, by decide +kernel, by decide⟩
  have hwithin : (selfBetrayal.reachable 2 1).contains 9 = true := by decide +kernel
  have hreach : ∀ e ∈ [selfLoop], selfBetrayal.Reaches 1 2 e.source := by
    intro e he
    rw [List.mem_singleton.mp he]
    exact (hbuilt.contains_reachable 2 1 9).mp hwithin
  have hrisk : ([selfLoop].map (·.risk)).sum < -(([selfLoop].length : ℕ) * Search.slack) := by
    norm_num [selfLoop, Search.slack, Arith.ratio]
  obtain ⟨⟨c, -, hfound⟩, -⟩ := hbuilt.detect_of_closedWalk hwalk hreach hrisk
  exact ⟨hwalk, hreach, c, hfound⟩

end SelfBetrayal

end WebOfTrust
