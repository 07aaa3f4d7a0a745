import Mathlib
import WebOfTrust.Betrayal.Cycle

/-!
# Passes over the edges

What a pass relaxes, seen as a list: the residual relaxations, each with the search right after it
and the node whose distance it lowered. The last pass traces one cycle for each.

* `Search.relax?_spec`: what a relaxation changes;
* `Search.residuals`: the relaxations of a pass; `pass_snd_iff`: a pass without any changes nothing;
* `Search.Keeps`: what every relaxation keeps, passes keep (`pass_induct`, `passes?_induct`,
  `residuals_induct`);
* `Graph.residuals`: the relaxations of the last pass;
* **`Graph.worstCycle?_mem`**: the worst cycle is traced after one of them.
-/

namespace WebOfTrust

variable {α : Type} [Arith α]

namespace Search

/-! ## Relaxation -/

theorem relax?_eq_none_iff {s : Search α} {e : Edge α} :
    s.relax? e = none ↔ s.offer? e = none := by
  unfold relax?
  cases s.offer? e <;> simp

theorem relax?_spec {s s' : Search α} {e : Edge α} (h : s.relax? e = some s') :
    ∃ d, s.offer? e = some d ∧
      (∀ v, s'.distance.get? v = if v = e.target then some d else s.distance.get? v) ∧
      ∀ v, s'.previous.get? v = if v = e.target then some e.source else s.previous.get? v := by
  unfold relax? at h
  split at h
  next d hd =>
    cases h
    exact ⟨d, hd, fun v => Table.get?_insert _ _ _ _, fun v => Table.get?_insert _ _ _ _⟩
  next => cases h

/-! ## Passes -/

/-- The relaxations of a pass: the search right after each, and its target. -/
def residuals (s : Search α) : List (Edge α) → List (Search α × NodeId)
  | [] => []
  | e :: rest =>
    match s.relax? e with
    | some s' => (s', e.target) :: s'.residuals rest
    | none => s.residuals rest

theorem residuals_cons_none {s : Search α} {e : Edge α} (h : s.relax? e = none)
    (rest : List (Edge α)) : s.residuals (e :: rest) = s.residuals rest := by
  rw [residuals, h]

theorem residuals_cons_some {s s' : Search α} {e : Edge α} (h : s.relax? e = some s')
    (rest : List (Edge α)) :
    s.residuals (e :: rest) = (s', e.target) :: s'.residuals rest := by
  rw [residuals, h]

theorem pass_cons_none {s : Search α} {e : Edge α} (h : s.relax? e = none)
    (rest : List (Edge α)) : s.pass (e :: rest) = s.pass rest := by
  rw [pass, h]

theorem pass_cons_some {s s' : Search α} {e : Edge α} (h : s.relax? e = some s')
    (rest : List (Edge α)) : s.pass (e :: rest) = ((s'.pass rest).1, true) := by
  rw [pass, h]

theorem pass_snd_iff (s : Search α) (edges : List (Edge α)) :
    (s.pass edges).2 = true ↔ s.residuals edges ≠ [] := by
  induction edges generalizing s with
  | nil => simp [pass, residuals]
  | cons e rest ih =>
    cases h : s.relax? e with
    | none => rw [pass_cons_none h, residuals_cons_none h, ih]
    | some s' => simp [pass_cons_some h, residuals_cons_some h]

theorem residuals_eq_nil_iff {s : Search α} {edges : List (Edge α)} :
    s.residuals edges = [] ↔ ∀ e ∈ edges, s.relax? e = none := by
  induction edges generalizing s with
  | nil => simp [residuals]
  | cons e rest ih =>
    cases h : s.relax? e with
    | none => simp [residuals_cons_none h, ih, h]
    | some s' => simp [residuals_cons_some h, h]

/-! ## What every relaxation keeps -/

/-- Every relaxation of one of some edges keeps a property of searches. -/
def Keeps (edges : List (Edge α)) (I : Search α → Prop) : Prop :=
  ∀ e ∈ edges, ∀ s s', I s → s.relax? e = some s' → I s'

section Induct

variable {I : Search α → Prop} {edges : List (Edge α)}

theorem Keeps.of_cons {e : Edge α} (hI : Keeps (e :: edges) I) : Keeps edges I :=
  fun e' he' => hI e' (List.mem_cons_of_mem _ he')

theorem pass_induct (hI : Keeps edges I) {s : Search α} (hs : I s) : I (s.pass edges).1 := by
  induction edges generalizing s with
  | nil => exact hs
  | cons e rest ih =>
    cases h : s.relax? e with
    | none =>
      rw [pass_cons_none h]
      exact ih hI.of_cons hs
    | some s' =>
      rw [pass_cons_some h]
      exact ih hI.of_cons (hI e List.mem_cons_self s s' hs h)

theorem passes?_induct (hI : Keeps edges I) {n : ℕ} {s s' : Search α} (hs : I s)
    (h : passes? edges n s = some s') : I s' := by
  induction n generalizing s with
  | zero =>
    cases h
    exact hs
  | succ n ih =>
    rw [passes?] at h
    dsimp only at h
    split_ifs at h
    exact ih (pass_induct hI hs) h

theorem exists_passes? (hI : Keeps edges I) (hres : ∀ s, I s → s.residuals edges ≠ [])
    {s : Search α} (hs : I s) (n : ℕ) : ∃ s', passes? edges n s = some s' := by
  induction n generalizing s with
  | zero => exact ⟨s, rfl⟩
  | succ n ih =>
    rw [passes?]
    dsimp only
    rw [if_pos ((pass_snd_iff s edges).mpr (hres s hs))]
    exact ih (pass_induct hI hs)

theorem residuals_induct (hI : Keeps edges I) {s : Search α} (hs : I s) :
    ∀ r ∈ s.residuals edges, I r.1 ∧ ∃ e ∈ edges, r.2 = e.target := by
  induction edges generalizing s with
  | nil => simp [residuals]
  | cons e rest ih =>
    have hweak : ∀ {s : Search α}, I s → ∀ r ∈ s.residuals rest,
        I r.1 ∧ ∃ e' ∈ e :: rest, r.2 = e'.target := by
      intro s hs r hr
      obtain ⟨hr1, e', he', hr2⟩ := ih hI.of_cons hs r hr
      exact ⟨hr1, e', List.mem_cons_of_mem _ he', hr2⟩
    cases h : s.relax? e with
    | none =>
      rw [residuals_cons_none h]
      exact hweak hs
    | some s' =>
      have hs' := hI e List.mem_cons_self s s' hs h
      rw [residuals_cons_some h]
      intro r hr
      rcases List.mem_cons.mp hr with rfl | hr
      · exact ⟨hs', e, List.mem_cons_self, rfl⟩
      · exact hweak hs' r hr

end Induct

end Search

/-! ## The last pass -/

namespace Graph

variable (g : Graph α)

/-- The relaxations of the last pass of the search from a source, none if an earlier pass has
changed nothing. -/
def residuals (source : NodeId) (nodes : KeySet NodeId) (now : Instant) :
    List (Search α × NodeId) :=
  let edges := g.edgesWithin nodes now
  match Search.passes? edges (nodes.size - 1) (Search.start source) with
  | none => []
  | some s => s.residuals edges

variable {g} {source : NodeId} {nodes : KeySet NodeId} {now : Instant}

theorem residuals_of_passes? {s : Search α}
    (h : Search.passes? (g.edgesWithin nodes now) (nodes.size - 1) (.start source) = some s) :
    g.residuals source nodes now = s.residuals (g.edgesWithin nodes now) := by
  unfold residuals
  dsimp only
  rw [h]

theorem residuals_eq_nil
    (h : Search.passes? (g.edgesWithin nodes now) (nodes.size - 1) (.start source) = none) :
    g.residuals source nodes now = [] := by
  unfold residuals
  dsimp only
  rw [h]

theorem worstCycle?_of_passes? {s : Search α}
    (h : Search.passes? (g.edgesWithin nodes now) (nodes.size - 1) (.start source) = some s) :
    g.worstCycle? source nodes now =
      ((g.edgesWithin nodes now).foldl (Findings.step g now nodes.size) ⟨s, [], none⟩).worst := by
  unfold worstCycle?
  dsimp only
  rw [h]

theorem worstCycle?_eq_none
    (h : Search.passes? (g.edgesWithin nodes now) (nodes.size - 1) (.start source) = none) :
    g.worstCycle? source nodes now = none := by
  unfold worstCycle?
  dsimp only
  rw [h]

theorem exists_passes?_of_residual {r : Search α × NodeId}
    (hr : r ∈ g.residuals source nodes now) :
    ∃ s, Search.passes? (g.edgesWithin nodes now) (nodes.size - 1) (.start source) = some s ∧
      r ∈ s.residuals (g.edgesWithin nodes now) := by
  cases h : Search.passes? (g.edgesWithin nodes now) (nodes.size - 1) (.start source) with
  | none =>
    rw [residuals_eq_nil h] at hr
    cases hr
  | some s =>
    rw [residuals_of_passes? h] at hr
    exact ⟨s, rfl, hr⟩

theorem residuals_induct {I : Search α → Prop} (hI : Search.Keeps (g.edgesWithin nodes now) I)
    (hs : I (.start source)) :
    ∀ r ∈ g.residuals source nodes now,
      I r.1 ∧ ∃ e ∈ g.edgesWithin nodes now, r.2 = e.target := by
  intro r hr
  obtain ⟨s, hpasses, hr⟩ := exists_passes?_of_residual hr
  exact Search.residuals_induct hI (Search.passes?_induct hI hs hpasses) r hr

theorem residuals_ne_nil {I : Search α → Prop}
    (hI : Search.Keeps (g.edgesWithin nodes now) I) (hs : I (.start source))
    (hres : ∀ s, I s → s.residuals (g.edgesWithin nodes now) ≠ []) :
    g.residuals source nodes now ≠ [] := by
  obtain ⟨s, hpasses⟩ := Search.exists_passes? hI hres hs (nodes.size - 1)
  rw [residuals_of_passes? hpasses]
  exact hres s (Search.passes?_induct hI hs hpasses)

theorem cycle?_eq_some_iff {cycle : List NodeId} {c : Cycle α} :
    g.cycle? cycle now = some c ↔ ∃ edges, g.lookupAll now (cycleArcs cycle) = some edges ∧
      c = ⟨cycle, edges, edges.foldl (fun sum e => sum + e.risk) 0⟩ := by
  unfold cycle?
  cases g.lookupAll now (cycleArcs cycle) with
  | none => simp
  | some edges => simp [eq_comm]

theorem cycle?_nodes {cycle : List NodeId} {c : Cycle α} (h : g.cycle? cycle now = some c) :
    c.nodes = cycle := by
  obtain ⟨edges, -, rfl⟩ := cycle?_eq_some_iff.mp h
  rfl

end Graph

namespace Findings

variable (g : Graph α) (now : Instant) (bound : ℕ)

/-- A cycle that is traced after a relaxation. -/
def Traced (r : Search α × NodeId) (c : Cycle α) : Prop :=
  traceCycle? r.1.previous r.2 bound = some c.nodes ∧ g.cycle? c.nodes now = some c

theorem enter_search (f : Findings α) (nodes : List NodeId) :
    (f.enter g now nodes).search = f.search := by
  unfold enter
  split_ifs <;> rfl

theorem worse_mem {w : Option (Cycle α)} {c c' : Cycle α} (h : worse w c = some c') :
    w = some c' ∨ c = c' ∧ ¬ 0 ≤ c.total := by
  unfold worse at h
  split_ifs at h with hc
  · exact .inl h
  · cases w with
    | none => exact .inr ⟨Option.some.inj h, hc⟩
    | some w =>
      dsimp only at h
      split_ifs at h
      · exact .inr ⟨Option.some.inj h, hc⟩
      · exact .inl h

theorem enter_worst_mem {f : Findings α} {nodes : List NodeId} {c : Cycle α}
    (h : (f.enter g now nodes).worst = some c) :
    f.worst = some c ∨ g.cycle? nodes now = some c ∧ ¬ 0 ≤ c.total := by
  unfold enter at h
  split_ifs at h with hn
  · exact .inl h
  · dsimp only at h
    split at h
    next c' hc' =>
      refine (worse_mem h).imp_right ?_
      rintro ⟨rfl, hneg⟩
      exact ⟨hc', hneg⟩
    next => exact .inl h

/-- What one edge does to the findings: nothing, a relaxation, or a relaxation and an entry. -/
theorem step_eq (f : Findings α) (e : Edge α) :
    (f.search.relax? e = none ∧ step g now bound f e = f) ∨
    ∃ s, f.search.relax? e = some s ∧
      ((traceCycle? s.previous e.target bound = none ∧
        step g now bound f e = { f with search := s }) ∨
      ∃ nodes, traceCycle? s.previous e.target bound = some nodes ∧
        step g now bound f e = { f with search := s }.enter g now nodes) := by
  unfold step
  cases f.search.relax? e with
  | none => exact .inl ⟨rfl, rfl⟩
  | some s =>
    refine .inr ⟨s, rfl, ?_⟩
    dsimp only
    cases traceCycle? s.previous e.target bound with
    | none => exact .inl ⟨rfl, rfl⟩
    | some nodes => exact .inr ⟨nodes, rfl, rfl⟩

/-- **The worst cycle of a pass is traced** after one of its relaxations. -/
theorem foldl_worst_mem (edges : List (Edge α)) {f : Findings α} {c : Cycle α}
    (h : (edges.foldl (step g now bound) f).worst = some c) :
    f.worst = some c ∨ ∃ r ∈ f.search.residuals edges, Traced g now bound r c ∧ ¬ 0 ≤ c.total := by
  induction edges generalizing f with
  | nil => exact .inl h
  | cons e rest ih =>
    rw [List.foldl_cons] at h
    rcases step_eq g now bound f e with ⟨he, heq⟩ | ⟨s, he, ⟨-, heq⟩ | ⟨nodes, htrace, heq⟩⟩
    · rw [heq] at h
      rw [Search.residuals_cons_none he]
      exact ih h
    · rw [heq] at h
      rw [Search.residuals_cons_some he]
      refine (ih h).imp_right ?_
      rintro ⟨r, hmem, hc⟩
      exact ⟨r, List.mem_cons_of_mem _ hmem, hc⟩
    · rw [heq] at h
      rw [Search.residuals_cons_some he]
      rcases ih h with h | ⟨r, hmem, hc⟩
      · refine (enter_worst_mem g now h).imp_right ?_
        rintro ⟨hc, hneg⟩
        have hnodes := Graph.cycle?_nodes hc
        exact ⟨(s, e.target), List.mem_cons_self,
          ⟨by rw [hnodes, htrace], by rw [hnodes, hc]⟩, hneg⟩
      · rw [enter_search] at hmem
        exact .inr ⟨r, List.mem_cons_of_mem _ hmem, hc⟩

end Findings

/-- **The worst cycle is traced after a relaxation of the last pass**, and is not zero or more. -/
theorem Graph.worstCycle?_mem {g : Graph α} {source : NodeId} {nodes : KeySet NodeId}
    {now : Instant} {c : Cycle α} (h : g.worstCycle? source nodes now = some c) :
    ∃ r ∈ g.residuals source nodes now, Findings.Traced g now nodes.size r c ∧ ¬ 0 ≤ c.total := by
  cases hs : Search.passes? (g.edgesWithin nodes now) (nodes.size - 1) (.start source) with
  | none =>
    rw [worstCycle?_eq_none hs] at h
    cases h
  | some s =>
    rw [worstCycle?_of_passes? hs] at h
    rw [residuals_of_passes? hs]
    rcases Findings.foldl_worst_mem g now nodes.size _ h with h | h
    · cases h
    · exact h

end WebOfTrust
