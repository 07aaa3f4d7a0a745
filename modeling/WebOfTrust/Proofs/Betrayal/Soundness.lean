import Mathlib
import WebOfTrust.Betrayal.Detect
import WebOfTrust.Betrayal.Evidence
import WebOfTrust.Proofs.Betrayal.Passes
import WebOfTrust.Proofs.Betrayal.Trace
import WebOfTrust.Proofs.Graph.Reach

/-!
# Evidence is a negative cycle

Whatever the arithmetic, the predecessors of a search are sources of live edges, so the cycle that
is traced back along them is one of live edges within reach.

* `ClosedWalk`, `SimpleCycle`: walks of live edges that end where they begin;
* `Search.Linked`: every predecessor is within reach and the source of a live edge;
* `Cycle.Genuine`: what a traced cycle satisfies; **`Built.genuine_of_worstCycle?`**;
* **`Built.evidence_sound`**: what evidence is, and what detection makes of it.
-/

namespace WebOfTrust

variable {α : Type}

namespace Graph

variable {g : Graph α} {now : Instant}

/-! ## Closed walks -/

/-- A closed walk of live edges: each ends where the next one begins, and the last where the first
does. -/
structure ClosedWalk (g : Graph α) (now : Instant) (edges : List (Edge α)) : Prop where
  nonempty : edges ≠ []
  live : ∀ e ∈ edges, g.lookup e.arc now = some e
  joined : edges.map (·.target) = (edges.map (·.source)).rotate 1

/-- A closed walk that leaves no node twice. -/
structure SimpleCycle (g : Graph α) (now : Instant) (edges : List (Edge α)) : Prop
    extends g.ClosedWalk now edges where
  simple : (edges.map (·.source)).Nodup

theorem ClosedWalk.sum_target {M : Type} [AddCommMonoid M] {edges : List (Edge α)}
    (h : g.ClosedWalk now edges) (f : NodeId → M) :
    ((edges.map (·.target)).map f).sum = ((edges.map (·.source)).map f).sum := by
  rw [h.joined]
  exact ((List.rotate_perm _ 1).map f).sum_eq

theorem exists_lookupAll {arcs : List Arc} (h : ∀ a ∈ arcs, ∃ e, g.lookup a now = some e) :
    ∃ edges, g.lookupAll now arcs = some edges := by
  induction arcs with
  | nil => exact ⟨[], rfl⟩
  | cons a rest ih =>
    obtain ⟨e, he⟩ := h a List.mem_cons_self
    obtain ⟨es, hes⟩ := ih fun b hb => h b (List.mem_cons_of_mem _ hb)
    exact ⟨e :: es, by rw [lookupAll, he, hes]⟩

variable [Arith α]

theorem Built.lookupAll_eq_some_iff (hg : g.Built) {arcs : List Arc} {edges : List (Edge α)} :
    g.lookupAll now arcs = some edges ↔
      edges.map Edge.arc = arcs ∧ ∀ e ∈ edges, g.lookup e.arc now = some e := by
  induction arcs generalizing edges with
  | nil =>
    rw [lookupAll, List.map_eq_nil_iff, Option.some.injEq]
    constructor
    · rintro rfl
      simp
    · exact fun h => h.1.symm
  | cons a rest ih =>
    rw [lookupAll]
    constructor
    · intro heq
      split at heq
      next e es he hes =>
        cases heq
        obtain ⟨harcs, hlive⟩ := ih.mp hes
        have ha := hg.arc_of_lookup he
        refine ⟨by rw [List.map_cons, ha, harcs], List.forall_mem_cons.mpr ⟨?_, hlive⟩⟩
        rw [ha]
        exact he
      next => cases heq
    · rintro ⟨harcs, hlive⟩
      obtain ⟨e, es, rfl, rfl, rfl⟩ := List.map_eq_cons_iff.mp harcs
      obtain ⟨he, hes⟩ := List.forall_mem_cons.mp hlive
      rw [he, ih.mpr ⟨rfl, hes⟩]

theorem Built.simpleCycle_of_lookupAll (hg : g.Built) {nodes : List NodeId}
    {edges : List (Edge α)} (hne : nodes ≠ []) (hnd : nodes.Nodup)
    (h : g.lookupAll now (cycleArcs nodes) = some edges) :
    g.SimpleCycle now edges ∧ edges.map (·.source) = nodes := by
  obtain ⟨harcs, hlive⟩ := hg.lookupAll_eq_some_iff.mp h
  have hsources : edges.map (·.source) = nodes := by
    rw [← map_source_cycleArcs nodes, ← harcs, List.map_map]
    rfl
  have htargets : edges.map (·.target) = nodes.rotate 1 := by
    rw [← map_target_cycleArcs nodes, ← harcs, List.map_map]
    rfl
  refine ⟨⟨⟨?_, hlive, ?_⟩, ?_⟩, hsources⟩
  · rintro rfl
    exact hne hsources.symm
  · rw [htargets, hsources]
  · rw [hsources]
    exact hnd

theorem Built.mem_edgesWithin_iff (hg : g.Built) {nodes : KeySet NodeId} {e : Edge α} :
    e ∈ g.edgesWithin nodes now ↔
      nodes.contains e.source = true ∧ g.lookup e.arc now = some e := by
  simp only [edgesWithin, List.mem_flatMap, Table.mem_keys_iff, hg.mem_outgoing_iff]
  constructor
  · rintro ⟨_, hu, rfl, hl⟩
    exact ⟨hu, hl⟩
  · exact fun ⟨hu, hl⟩ => ⟨_, hu, rfl, hl⟩

end Graph

/-! ## Predecessors are sources of live edges -/

variable [Arith α] {g : Graph α} {now : Instant} {nodes : KeySet NodeId}

/-- Every predecessor is among some nodes and has a live edge to its node. -/
def Search.Linked (g : Graph α) (now : Instant) (nodes : KeySet NodeId) (s : Search α) : Prop :=
  ∀ v u, s.previous.get? v = some u →
    nodes.contains u = true ∧ ∃ e, g.lookup ⟨u, v⟩ now = some e

theorem Search.linked_start (source : NodeId) : Linked g now nodes (.start source) := by
  intro v u h
  cases h

theorem Graph.Built.keeps_linked (hg : g.Built) :
    Search.Keeps (g.edgesWithin nodes now) (Search.Linked g now nodes) := by
  intro e he s s' hs hr v u hv
  obtain ⟨hu, hl⟩ := hg.mem_edgesWithin_iff.mp he
  obtain ⟨d, -, -, hprev⟩ := Search.relax?_spec hr
  rw [hprev] at hv
  split_ifs at hv with h
  · cases hv
    rw [h]
    exact ⟨hu, e, hl⟩
  · exact hs v u hv

theorem Graph.Built.linked_of_residual (hg : g.Built) {source : NodeId} {r : Search α × NodeId}
    (hr : r ∈ g.residuals source (g.reachable source now) now) :
    r.1.Linked g now (g.reachable source now) ∧
      (g.reachable source now).contains r.2 = true := by
  obtain ⟨hlinked, e, he, htarget⟩ :=
    Graph.residuals_induct hg.keeps_linked (Search.linked_start source) r hr
  obtain ⟨hsource, hlive⟩ := hg.mem_edgesWithin_iff.mp he
  rw [htarget]
  exact ⟨hlinked, hg.contains_reachable_of_lookup hsource hlive⟩

omit [Arith α] in
theorem Search.Linked.trace {s : Search α} (hs : s.Linked g now nodes) {v stop : NodeId}
    (hv : nodes.contains v = true) (h : stepsBack? s.previous nodes.size v = some stop) :
    ∃ cycle, traceCycle? s.previous v nodes.size = some cycle ∧
      PredecessorCycle s.previous cycle ∧
      (∀ hn : cycle ≠ [], ∀ u ∈ cycle, cycle.head hn ≤ u) ∧ stop ∈ cycle := by
  refine traceCycle?_of_stepsBack (N := nodes.keys.toFinset) ?_ (fun w u hw => ?_) ?_ h
  · rw [← Table.length_keys]
    exact List.toFinset_card_le _
  · rw [List.mem_toFinset, Table.mem_keys_iff]
    exact (hs w u hw).1
  · rw [List.mem_toFinset, Table.mem_keys_iff]
    exact hv

omit [Arith α] in
theorem Search.Linked.contains {s : Search α} (hs : s.Linked g now nodes) {cycle : List NodeId}
    (hc : PredecessorCycle s.previous cycle) : ∀ u ∈ cycle, nodes.contains u = true := by
  intro u hu
  rw [← map_source_cycleArcs cycle, List.mem_map] at hu
  obtain ⟨a, ha, rfl⟩ := hu
  exact (hs _ _ (hc.linked a ha)).1

/-- A cycle of predecessors of a linked search has live edges. -/
theorem Search.Linked.exists_cycle? {s : Search α} (hs : s.Linked g now nodes)
    {cycle : List NodeId} (hc : PredecessorCycle s.previous cycle) :
    ∃ c, g.cycle? cycle now = some c := by
  obtain ⟨edges, he⟩ := Graph.exists_lookupAll fun a ha => (hs _ _ (hc.linked a ha)).2
  exact ⟨_, by rw [Graph.cycle?, he]⟩

/-! ## Genuine cycles -/

/-- What a cycle of live edges among some nodes satisfies, listed from its least node on and with
the sum of its risks. -/
structure Cycle.Genuine (g : Graph α) (now : Instant) (nodes : KeySet NodeId) (c : Cycle α) :
    Prop where
  simple : g.SimpleCycle now c.edges
  sources : c.edges.map (·.source) = c.nodes
  within : ∀ v ∈ c.nodes, nodes.contains v = true
  least : ∀ hn : c.nodes ≠ [], ∀ v ∈ c.nodes, c.nodes.head hn ≤ v
  total : c.total = c.edges.foldl (fun sum e => sum + e.risk) 0

theorem Cycle.Genuine.nodes_ne_nil {c : Cycle α} (hc : c.Genuine g now nodes) : c.nodes ≠ [] := by
  rw [← hc.sources, ne_eq, List.map_eq_nil_iff]
  exact hc.simple.nonempty

theorem Cycle.Genuine.reaches (hg : g.Built) {source : NodeId} {c : Cycle α}
    (hc : c.Genuine g now (g.reachable source now)) {e : Edge α} (he : e ∈ c.edges) :
    g.Reaches now source e.source := by
  have hnode : e.source ∈ c.nodes := hc.sources ▸ List.mem_map_of_mem he
  exact (hg.contains_reachable source now _).mp (hc.within _ hnode)

/-- **A traced cycle is genuine.** -/
theorem Graph.Built.genuine_of_traced (hg : g.Built) {s : Search α} (hs : s.Linked g now nodes)
    {v : NodeId} (hv : nodes.contains v = true) {c : Cycle α}
    (h : Findings.Traced g now nodes.size (s, v) c) :
    c.Genuine g now nodes ∧ PredecessorCycle s.previous c.nodes := by
  obtain ⟨htrace, hcycle⟩ := h
  obtain ⟨stop, hstop⟩ := exists_stepsBack_of_traceCycle? htrace
  obtain ⟨cycle, ht, hp, hleast, -⟩ := hs.trace hv hstop
  obtain rfl : c.nodes = cycle := Option.some.inj (htrace.symm.trans ht)
  obtain ⟨edges, hl, hc⟩ := Graph.cycle?_eq_some_iff.mp hcycle
  obtain ⟨hsimple, hsources⟩ := hg.simpleCycle_of_lookupAll hp.nonempty hp.nodup hl
  have hedges : c.edges = edges := congrArg Cycle.edges hc
  refine ⟨⟨?_, ?_, hs.contains hp, hleast, ?_⟩, hp⟩
  · rw [hedges]
    exact hsimple
  · rw [hedges]
    exact hsources
  · rw [hedges]
    exact congrArg Cycle.total hc

/-- **The worst cycle is a genuine cycle** within reach, and its total is not zero or more. -/
theorem Graph.Built.genuine_of_worstCycle? (hg : g.Built) {source : NodeId} {c : Cycle α}
    (h : g.worstCycle? source (g.reachable source now) now = some c) :
    c.Genuine g now (g.reachable source now) ∧ ¬ 0 ≤ c.total := by
  obtain ⟨r, hr, htraced, hneg⟩ := Graph.worstCycle?_mem h
  obtain ⟨hlinked, hwithin⟩ := hg.linked_of_residual hr
  exact ⟨(hg.genuine_of_traced hlinked hwithin htraced).1, hneg⟩

/-! ## Evidence and detection -/

/-- What evidence shows of the graph it is gathered from: a simple cycle of live edges within reach
of the node, from its least source on, whose risks add up to less than zero. -/
structure Evidence.Sound (g : Graph α) (now : Instant) (e : Evidence α) : Prop where
  simple : g.SimpleCycle now e.edges
  within : ∀ v ∈ e.nodes, (g.reachable e.node now).contains v = true
  least : ∀ first ∈ e.nodes.head?, ∀ v ∈ e.nodes, first ≤ v
  total : e.total = e.edges.foldl (fun sum e => sum + e.risk) 0
  negative : ¬ 0 ≤ e.total

theorem Graph.evidence?_eq_some_iff {node : NodeId} {e : Evidence α} :
    g.evidence? node now = some e ↔
      ∃ c, g.worstCycle? node (g.reachable node now) now = some c ∧
        e = ⟨node, c.edges, c.total⟩ := by
  unfold evidence?
  cases g.worstCycle? node (g.reachable node now) now with
  | none => simp
  | some c => simp [eq_comm]

theorem Graph.isSome_evidence? (node : NodeId) :
    (g.evidence? node now).isSome = (g.worstCycle? node (g.reachable node now) now).isSome := by
  unfold evidence?
  cases g.worstCycle? node (g.reachable node now) now <;> rfl

section Detect

variable [Logarithm α] (settings : BetrayalSettings α)

theorem BeliefOutcome.anomaly_reason_ne (source : NodeId) (b : BeliefOutcome α) :
    (b.anomaly settings source).reason ≠ .negativeCycle := by
  cases b <;> exact Reason.noConfusion

theorem Graph.detect_of_worstCycle? {source : NodeId} {c : Cycle α}
    (h : g.worstCycle? source (g.reachable source now) now = some c) :
    g.detect settings source now = c.anomaly settings source := by
  rw [detect, h]

theorem Graph.detect_reason_iff (source : NodeId) :
    (g.detect settings source now).reason = .negativeCycle ↔
      (g.evidence? source now).isSome = true := by
  rw [isSome_evidence?]
  cases h : g.worstCycle? source (g.reachable source now) now with
  | some c =>
    rw [detect_of_worstCycle? settings h]
    exact ⟨fun _ => rfl, fun _ => rfl⟩
  | none =>
    refine iff_of_false ?_ (by simp)
    rw [detect, h]
    dsimp only
    split
    next => exact Reason.noConfusion
    next => exact BeliefOutcome.anomaly_reason_ne settings source _

/-- **Evidence is sound**, whatever the arithmetic, and is what detection reports as a cycle. -/
theorem Graph.Built.evidence_sound (hg : g.Built) (node : NodeId) (now : Instant) :
    (∀ e, g.evidence? node now = some e → e.node = node ∧ e.Sound g now ∧
      (g.detect settings node now).score =
        cycleScore (Arith.magnitude e.total) settings.criticalMagnitude ∧
      some (g.detect settings node now).node =
        if node ∈ e.nodes then some node else e.nodes.head?) ∧
    ((g.detect settings node now).reason = .negativeCycle ↔
      (g.evidence? node now).isSome = true) := by
  refine ⟨fun e he => ?_, Graph.detect_reason_iff settings node⟩
  obtain ⟨c, hc, rfl⟩ := Graph.evidence?_eq_some_iff.mp he
  obtain ⟨hgen, hneg⟩ := hg.genuine_of_worstCycle? hc
  have hnodes : Evidence.nodes ⟨node, c.edges, c.total⟩ = c.nodes := hgen.sources
  have hne := hgen.nodes_ne_nil
  rw [Graph.detect_of_worstCycle? settings hc]
  refine ⟨rfl, ⟨hgen.simple, ?_, ?_, hgen.total, hneg⟩, rfl, ?_⟩
  · rw [hnodes]
    exact hgen.within
  · rw [hnodes, List.head?_eq_some_head hne]
    rintro first ⟨⟩
    exact hgen.least hne
  · rw [hnodes, List.head?_eq_some_head hne, Cycle.anomaly]
    split_ifs
    · rfl
    · rw [List.headD_eq_head?_getD, List.head?_eq_some_head hne]
      rfl

/-- Two nodes that betray each other, within reach of a third one; an edge that was revoked and a
spent nonce. -/
def mutualBetrayal : Graph Float :=
  let added := Graph.empty.addAll
    [⟨2, 9, 1, 0, 0, 3, 100⟩, ⟨9, 5, -1, 0, 0, 3, 100⟩, ⟨5, 9, -1, 0, 0, 3, 100⟩,
      ⟨2, 5, -1, 0, 0, 3, 100⟩]
  ((added.revoke ⟨2, 5⟩ 3).2.spend ⟨2, 9⟩ 7).2

/-- The evidence from the third node shows the cycle of the other two. -/
theorem evidence_sound_mutualBetrayal :
    mutualBetrayal.Built ∧ ∃ e, mutualBetrayal.evidence? 2 4 = some e ∧
      e.Sound mutualBetrayal 4 := by
  have hbuilt : mutualBetrayal.Built := ((Graph.Built.empty.addAll _).revoke _ _).spend _ _
  have hsome : (mutualBetrayal.evidence? 2 4).isSome = true := by decide +kernel
  obtain ⟨e, he⟩ := Option.isSome_iff_exists.mp hsome
  obtain ⟨-, hsound, -⟩ :=
    (Graph.Built.evidence_sound Config.default.betrayal hbuilt 2 4).1 e he
  exact ⟨hbuilt, e, he, hsound⟩

end Detect

end WebOfTrust
