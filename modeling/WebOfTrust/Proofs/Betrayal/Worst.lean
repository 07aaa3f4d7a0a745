import WebOfTrust.Proofs.Betrayal.Relaxation

/-!
# The worst of the traced cycles

Over exact rationals evidence is the worst of the cycles that the last pass traces. It is the worst
within reach exactly when the last pass traces a worst one, which it need not do. It surely does so
in a graph whose negative cycles all have the same total, as where there is only one.

* `Findings.Below`: a cycle has been found that is as bad as some total;
* `Findings.worst_le`, `Graph.worstCycle?_le`: every traced negative cycle is matched;
* `Graph.Tied`: the negative cycles within reach have the same total;
* **`Graph.evidence_worst_iff`**: when evidence is the worst cycle within reach;
  `evidence_not_worst`: a graph in which it is not.
-/

namespace WebOfTrust

variable {g : Graph ℚ} {now : Instant}

/-! ## The least total -/

namespace Findings

variable {bound : ℕ} {f : Findings ℚ} {x : ℚ}

/-- A cycle has been found whose total is at most some other. -/
def Below (w : Option (Cycle ℚ)) (x : ℚ) : Prop := ∃ c, w = some c ∧ c.total ≤ x

theorem Below.worse {w : Option (Cycle ℚ)} (h : Below w x) (c : Cycle ℚ) :
    Below (Findings.worse w c) x := by
  obtain ⟨w, rfl, hw⟩ := h
  unfold Findings.worse
  split_ifs with hc
  · exact ⟨w, rfl, hw⟩
  · dsimp only
    split_ifs with hlt
    · exact ⟨c, rfl, hlt.le.trans hw⟩
    · exact ⟨w, rfl, hw⟩

theorem below_worse (w : Option (Cycle ℚ)) {c : Cycle ℚ} (hc : c.total < 0) :
    Below (Findings.worse w c) c.total := by
  unfold Findings.worse
  rw [if_neg (not_le.mpr hc)]
  cases w with
  | none => exact ⟨c, rfl, le_rfl⟩
  | some w =>
    dsimp only
    split_ifs with hlt
    · exact ⟨c, rfl, le_rfl⟩
    · exact ⟨w, rfl, not_lt.mp hlt⟩

/-- Every negative cycle that is listed as traced is matched by the worst one. -/
def Accounted (g : Graph ℚ) (now : Instant) (f : Findings ℚ) : Prop :=
  ∀ c, c.nodes ∈ f.traced → g.cycle? c.nodes now = some c → c.total < 0 → Below f.worst c.total

theorem Below.enter (h : Below f.worst x) (nodes : List NodeId) :
    Below (f.enter g now nodes).worst x := by
  unfold Findings.enter
  split_ifs
  · exact h
  · dsimp only
    split
    next c _ => exact h.worse c
    next => exact h

theorem Accounted.enter (h : f.Accounted g now) (nodes : List NodeId) :
    (f.enter g now nodes).Accounted g now ∧ nodes ∈ (f.enter g now nodes).traced := by
  by_cases hn : nodes ∈ f.traced
  · rw [Findings.enter, if_pos hn]
    exact ⟨h, hn⟩
  · refine ⟨fun c hc hcycle hneg => ?_, ?_⟩
    · rw [Findings.enter, if_neg hn] at hc
      rcases List.mem_cons.mp hc with rfl | hc
      · rw [Findings.enter, if_neg hn, hcycle]
        exact below_worse f.worst hneg
      · exact (h c hc hcycle hneg).enter nodes
    · rw [Findings.enter, if_neg hn]
      exact List.mem_cons_self

variable (g now bound)

theorem Below.foldl (edges : List (Edge ℚ)) (h : Below f.worst x) :
    Below (edges.foldl (step g now bound) f).worst x := by
  induction edges generalizing f with
  | nil => exact h
  | cons e rest ih =>
    rw [List.foldl_cons]
    apply ih
    rcases step_eq g now bound f e with ⟨-, heq⟩ | ⟨s, -, ⟨-, heq⟩ | ⟨nodes, -, heq⟩⟩
    · rw [heq]
      exact h
    · rw [heq]
      exact h
    · rw [heq]
      exact Below.enter (f := { f with search := s }) h nodes

/-- **Every negative cycle that a pass traces is matched** by the worst one it finds. -/
theorem worst_le (edges : List (Edge ℚ)) (h : f.Accounted g now) :
    ∀ r ∈ f.search.residuals edges, ∀ c, Traced g now bound r c → c.total < 0 →
      Below (edges.foldl (step g now bound) f).worst c.total := by
  induction edges generalizing f with
  | nil => simp [Search.residuals]
  | cons e rest ih =>
    intro r hr c hc hneg
    rw [List.foldl_cons]
    rcases step_eq g now bound f e with ⟨he, heq⟩ | ⟨s, he, ⟨htrace, heq⟩ | ⟨nodes, htrace, heq⟩⟩
    · rw [Search.residuals_cons_none he] at hr
      rw [heq]
      exact ih h r hr c hc hneg
    · rw [Search.residuals_cons_some he] at hr
      rw [heq]
      rcases List.mem_cons.mp hr with rfl | hr
      · cases htrace.symm.trans hc.1
      · exact ih (f := { f with search := s }) h r hr c hc hneg
    · rw [Search.residuals_cons_some he] at hr
      rw [heq]
      obtain ⟨haccounted, hmem⟩ := Accounted.enter (f := { f with search := s }) h nodes
      rcases List.mem_cons.mp hr with rfl | hr
      · obtain rfl : nodes = c.nodes := Option.some.inj (htrace.symm.trans hc.1)
        exact (haccounted c hmem hc.2 hneg).foldl g now bound rest
      · refine ih haccounted r ?_ c hc hneg
        rw [enter_search]
        exact hr

end Findings

/-- **Every negative cycle that the last pass traces is matched** by the worst one. -/
theorem Graph.worstCycle?_le {source : NodeId} {nodes : KeySet NodeId} {r : Search ℚ × NodeId}
    (hr : r ∈ g.residuals source nodes now) {c : Cycle ℚ}
    (hc : Findings.Traced g now nodes.size r c) (hneg : c.total < 0) :
    Findings.Below (g.worstCycle? source nodes now) c.total := by
  obtain ⟨s, hs, hr⟩ := exists_passes?_of_residual hr
  have hstart : Findings.Accounted g now ⟨s, [], none⟩ := fun c hc => by cases hc
  rw [worstCycle?_of_passes? hs]
  exact Findings.worst_le g now nodes.size _ hstart r hr c hc hneg

/-! ## Evidence and the worst cycle within reach -/

/-- The last pass from a source traces a cycle. -/
def Graph.Traces (g : Graph ℚ) (now : Instant) (source : NodeId) (c : Cycle ℚ) : Prop :=
  ∃ r ∈ g.residuals source (g.reachable source now) now,
    Findings.Traced g now (g.reachable source now).size r c

/-- No simple cycle of live edges within reach of a source has a smaller total. -/
def Graph.NoneWorse (g : Graph ℚ) (now : Instant) (source : NodeId) (total : ℚ) : Prop :=
  ∀ cycle, g.SimpleCycle now cycle → (∀ f ∈ cycle, g.Reaches now source f.source) →
    total ≤ (cycle.map (·.risk)).sum

/-- All negative simple cycles of live edges within reach of a source have the same total. -/
def Graph.Tied (g : Graph ℚ) (now : Instant) (source : NodeId) : Prop :=
  ∀ cycle cycle', g.SimpleCycle now cycle → g.SimpleCycle now cycle' →
    (∀ f ∈ cycle, g.Reaches now source f.source) → (∀ f ∈ cycle', g.Reaches now source f.source) →
    (cycle.map (·.risk)).sum < 0 → (cycle'.map (·.risk)).sum < 0 →
    (cycle.map (·.risk)).sum = (cycle'.map (·.risk)).sum

theorem Graph.Built.noneWorse_of_tied (hg : g.Built) {source : NodeId} (htied : g.Tied now source)
    {w : Cycle ℚ} (hw : g.worstCycle? source (g.reachable source now) now = some w) :
    g.NoneWorse now source w.total := by
  obtain ⟨hgenuine, hneg⟩ := hg.genuine_of_worstCycle? hw
  have htotal : w.total = (w.edges.map (·.risk)).sum := by rw [hgenuine.total, foldl_risk]
  intro cycle hcycle hreach
  rcases lt_or_ge (cycle.map (·.risk)).sum 0 with hlt | hge
  · rw [htotal] at hneg ⊢
    exact (htied _ _ hgenuine.simple hcycle (fun f hf => hgenuine.reaches hg hf) hreach
      (not_le.mp hneg) hlt).le
  · exact (not_le.mp hneg).le.trans hge

/-- **Evidence is the worst of the cycles that the last pass traces**, so it is the worst within
reach exactly when one of those is, and surely when the negative ones tie. -/
theorem Graph.evidence_worst_iff {node : NodeId} {e : Evidence ℚ}
    (he : g.evidence? node now = some e) :
    (∃ c, g.Traces now node c ∧ e = ⟨node, c.edges, c.total⟩) ∧
    (∀ c, g.Traces now node c → e.total ≤ c.total) ∧
    (g.NoneWorse now node e.total ↔ ∃ c, g.Traces now node c ∧ g.NoneWorse now node c.total) ∧
    (g.Built → g.Tied now node → g.NoneWorse now node e.total) := by
  obtain ⟨w, hw, rfl⟩ := evidence?_eq_some_iff.mp he
  obtain ⟨r, hr, htraced, hneg⟩ := worstCycle?_mem hw
  have hle : ∀ c, g.Traces now node c → w.total ≤ c.total := by
    rintro c ⟨r, hr, hc⟩
    rcases lt_or_ge c.total 0 with hlt | hge
    · obtain ⟨w', hw', hle⟩ := worstCycle?_le hr hc hlt
      cases hw.symm.trans hw'
      exact hle
    · exact (not_le.mp hneg).le.trans hge
  refine ⟨⟨w, ⟨r, hr, htraced⟩, rfl⟩, hle, ⟨fun h => ⟨w, ⟨r, hr, htraced⟩, h⟩, ?_⟩,
    fun hg htied => hg.noneWorse_of_tied htied hw⟩
  rintro ⟨c, hc, hnone⟩ cycle hcycle hreach
  exact (hle c hc).trans (hnone cycle hcycle hreach)

section Overlapping

/-- Two short cycles that share nodes with a longer one. -/
def overlapping : Graph ℚ :=
  Graph.empty.addAll
    [⟨0, 1, -1, 0, 0, 3, 100⟩, ⟨0, 2, -1, 0, 0, 3, 100⟩, ⟨1, 0, -1, 0, 0, 3, 100⟩,
      ⟨1, 2, -1, 0, 0, 3, 100⟩, ⟨2, 1, -1 / 2, 0, 0, 3, 100⟩]

/-- The longer cycle. -/
def longWay : List (Edge ℚ) :=
  [⟨0, 2, -1, 0, 0, 3, 100⟩, ⟨2, 1, -1 / 2, 0, 0, 3, 100⟩, ⟨1, 0, -1, 0, 0, 3, 100⟩]

theorem overlapping_built : overlapping.Built := Graph.Built.empty.addAll _

theorem overlapping_evidence : ∃ e, overlapping.evidence? 0 1 = some e ∧ e.total = -2 := by
  have htotal : (overlapping.evidence? 0 1).map (·.total) = some (-2) := by decide +kernel
  exact Option.map_eq_some_iff.mp htotal

theorem longWay_simpleCycle : overlapping.SimpleCycle 1 longWay where
  nonempty := by decide
  live := by decide +kernel
  joined := by decide
  simple := by decide

theorem longWay_reaches : ∀ f ∈ longWay, overlapping.Reaches 1 0 f.source := by
  have hwithin : ∀ f ∈ longWay, (overlapping.reachable 0 1).contains f.source = true := by
    decide +kernel
  intro f hf
  exact (overlapping_built.contains_reachable 0 1 f.source).mp (hwithin f hf)

theorem longWay_risk : (longWay.map (·.risk)).sum = -5 / 2 := by
  norm_num [longWay]

/-- The evidence has a total of -2, and the longer cycle one of -5/2. -/
theorem evidence_not_worst :
    overlapping.Built ∧ ∃ e, overlapping.evidence? 0 1 = some e ∧
      ∃ cycle, overlapping.SimpleCycle 1 cycle ∧
        (∀ f ∈ cycle, overlapping.Reaches 1 0 f.source) ∧ (cycle.map (·.risk)).sum < e.total := by
  obtain ⟨e, he, htotal⟩ := overlapping_evidence
  refine ⟨overlapping_built, e, he, longWay, longWay_simpleCycle, longWay_reaches, ?_⟩
  rw [longWay_risk, htotal]
  norm_num

/-- The longer cycle is none of those traced, nor is another one as bad, and the cycles differ. -/
theorem evidence_worst_iff_overlapping :
    ∃ e, overlapping.evidence? 0 1 = some e ∧
      (¬ ∃ c, overlapping.Traces 1 0 c ∧ overlapping.NoneWorse 1 0 c.total) ∧
      ¬ overlapping.Tied 1 0 := by
  obtain ⟨e, he, htotal⟩ := overlapping_evidence
  obtain ⟨-, -, hiff, htied⟩ := Graph.evidence_worst_iff he
  have hworse : ¬ overlapping.NoneWorse 1 0 e.total := by
    intro hnone
    have hle := hnone longWay longWay_simpleCycle longWay_reaches
    rw [longWay_risk, htotal] at hle
    norm_num at hle
  exact ⟨e, he, mt hiff.mpr hworse, mt (htied overlapping_built) hworse⟩

end Overlapping

end WebOfTrust
