import WebOfTrust.Proofs.Betrayal.Relaxation

/-!
# Phases of a search

The phase of a node is the number of the pass that last lowered its distance. Over exact rationals
a node is no more than one phase ahead of its predecessor, so from a node that the last pass relaxes
a walk leads back through as many phases as there are nodes.

* `Search.Phased`: what the phases satisfy in the middle of a pass;
* `Phased.skip`, `Phased.relax`: one edge; `Phased.pass`, `Phased.passes?`: whole passes;
* **`Graph.isSome_stepsBack_of_residual`**: the walk back from a relaxation of the last pass;
* **`Graph.Built.exists_traced_of_residual`**: it leads into a cycle, which is traced.
-/

namespace WebOfTrust

namespace Search

/-- The phases of nodes in the middle of a pass, some edges of which are still to come. An edge
offers nothing if its source was last lowered before the previous pass, or, once the edge has had
its turn, before this one. -/
structure Phased (edges rest : List (Edge ℚ)) (p : ℕ) (phase : NodeId → ℕ) (s : Search ℚ) :
    Prop where
  le : ∀ v, phase v ≤ p
  step : ∀ v u, s.previous.get? v = some u → phase v ≤ phase u + 1
  previous : ∀ v, 0 < phase v → (s.previous.get? v).isSome = true
  early : ∀ e ∈ edges, phase e.source + 1 < p → s.relax? e = none
  late : ∀ e ∈ edges, e ∉ rest → phase e.source < p → s.relax? e = none

variable {edges rest : List (Edge ℚ)} {p : ℕ} {phase : NodeId → ℕ} {s s' : Search ℚ} {e : Edge ℚ}

theorem phased_start (edges : List (Edge ℚ)) (source : NodeId) :
    Phased edges edges 1 (fun _ => 0) (start source) where
  le _ := Nat.zero_le 1
  step _ _ h := by cases h
  previous _ h := absurd h (Nat.lt_irrefl 0)
  early _ _ h := absurd h (by omega)
  late _ he hn := absurd he hn

/-! ## One edge -/

theorem Phased.skip (h : Phased edges (e :: rest) p phase s) (he : s.relax? e = none) :
    Phased edges rest p phase s where
  le := h.le
  step := h.step
  previous := h.previous
  early := h.early
  late f hf hrest hphase := by
    by_cases hfe : f = e
    · rw [hfe]
      exact he
    · exact h.late f hf (by simp [hfe, hrest]) hphase

theorem Phased.le_update (h : Phased edges rest p phase s) (w v : NodeId) :
    phase v ≤ Function.update phase w p v := by
  rw [Function.update_apply]
  split_ifs with hv
  · exact h.le v
  · exact le_rfl

theorem ne_and_lt_of_update_lt {w v : NodeId} (h : Function.update phase w p v < p) :
    v ≠ w ∧ phase v < p := by
  have hne : v ≠ w := by
    rintro rfl
    rw [Function.update_self] at h
    exact Nat.lt_irrefl p h
  rw [Function.update_of_ne hne] at h
  exact ⟨hne, h⟩

/-- The source of a relaxed edge was lowered in this pass or in the one before. -/
theorem Phased.le_source (h : Phased edges rest p phase s) (hmem : e ∈ edges)
    (he : s.relax? e = some s') : p ≤ phase e.source + 1 := by
  by_contra hlt
  rw [h.early e hmem (by omega)] at he
  cases he

theorem Phased.relax (h : Phased edges (e :: rest) p phase s) (hmem : e ∈ edges)
    (he : s.relax? e = some s') :
    Phased edges rest p (Function.update phase e.target p) s' := by
  obtain ⟨-, -, -, hprev⟩ := relax?_spec he
  refine ⟨fun v => ?_, fun v u hv => ?_, fun v hv => ?_, fun f hf hphase => ?_,
    fun f hf hrest hphase => ?_⟩
  · rw [Function.update_apply]
    split_ifs
    · exact le_rfl
    · exact h.le v
  · rw [hprev] at hv
    split_ifs at hv with hvt
    · cases hv
      have hsource := h.le_source hmem he
      have hle := h.le_update e.target e.source
      rw [hvt, Function.update_self]
      omega
    · rw [Function.update_of_ne hvt]
      exact (h.step v u hv).trans (Nat.add_le_add_right (h.le_update _ u) 1)
  · rw [hprev]
    split_ifs with hvt
    · rfl
    · rw [Function.update_of_ne hvt] at hv
      exact h.previous v hv
  · have hlt : Function.update phase e.target p f.source < p := by omega
    have hne := (ne_and_lt_of_update_lt hlt).1
    rw [Function.update_of_ne hne] at hphase
    exact relax?_eq_none_of_relax he hne (h.early f hf hphase)
  · obtain ⟨hne, hlt⟩ := ne_and_lt_of_update_lt hphase
    by_cases hfe : f = e
    · subst hfe
      exact relax?_self_eq_none he hne
    · exact relax?_eq_none_of_relax he hne (h.late f hf (by simp [hfe, hrest]) hlt)

/-! ## Whole passes -/

theorem Phased.next (h : Phased edges [] p phase s) : Phased edges edges (p + 1) phase s where
  le v := Nat.le_succ_of_le (h.le v)
  step := h.step
  previous := h.previous
  early e he hphase := h.late e he List.not_mem_nil (by omega)
  late _ he hn := absurd he hn

theorem Phased.pass (h : Phased edges rest p phase s) (hrest : rest ⊆ edges) :
    (∃ phase', Phased edges [] p phase' (s.pass rest).1) ∧
    ∀ r ∈ s.residuals rest, ∃ rest' phase', Phased edges rest' p phase' r.1 ∧ phase' r.2 = p := by
  induction rest generalizing s phase with
  | nil => exact ⟨⟨phase, h⟩, by simp [residuals]⟩
  | cons e rest ih =>
    have htail : rest ⊆ edges := List.Subset.trans (List.subset_cons_self e rest) hrest
    cases he : s.relax? e with
    | none =>
      rw [pass_cons_none he, residuals_cons_none he]
      exact ih (h.skip he) htail
    | some s' =>
      have h' := h.relax (hrest List.mem_cons_self) he
      obtain ⟨hpass, hres⟩ := ih h' htail
      rw [pass_cons_some he, residuals_cons_some he]
      refine ⟨hpass, fun r hr => ?_⟩
      rcases List.mem_cons.mp hr with rfl | hr
      · exact ⟨rest, _, h', Function.update_self _ _ _⟩
      · exact hres r hr

theorem Phased.passes? {n : ℕ} (h : Phased edges edges p phase s)
    (hs : passes? edges n s = some s') : ∃ phase', Phased edges edges (p + n) phase' s' := by
  induction n generalizing s p phase with
  | zero =>
    cases hs
    exact ⟨phase, h⟩
  | succ n ih =>
    rw [Search.passes?] at hs
    dsimp only at hs
    split_ifs at hs
    obtain ⟨phase', h'⟩ := (h.pass (List.Subset.refl edges)).1
    obtain ⟨phase'', h''⟩ := ih h'.next hs
    refine ⟨phase'', ?_⟩
    rw [Nat.add_right_comm] at h''
    exact h''

/-! ## Walking back through the passes -/

theorem Phased.isSome_stepsBack (h : Phased edges rest p phase s) {n : ℕ} {v : NodeId}
    (hn : n ≤ phase v) : (stepsBack? s.previous n v).isSome = true := by
  induction n generalizing v with
  | zero => rfl
  | succ n ih =>
    obtain ⟨u, hu⟩ := Option.isSome_iff_exists.mp (h.previous v (by omega))
    have := h.step v u hu
    rw [stepsBack?_succ, hu]
    exact ih (by omega)

end Search

variable {g : Graph ℚ} {now : Instant} {nodes : KeySet NodeId} {source : NodeId}

/-- **A relaxation of the last pass ends a walk back** through as many steps as there are nodes. -/
theorem Graph.isSome_stepsBack_of_residual {r : Search ℚ × NodeId}
    (hr : r ∈ g.residuals source nodes now) :
    (stepsBack? r.1.previous nodes.size r.2).isSome = true := by
  obtain ⟨s, hs, hr⟩ := exists_passes?_of_residual hr
  obtain ⟨phase, h⟩ := (Search.phased_start _ source).passes? hs
  obtain ⟨_, _, h', hphase⟩ := (h.pass (List.Subset.refl _)).2 r hr
  exact h'.isSome_stepsBack (by omega)

/-- **After every relaxation of the last pass a cycle is traced.** -/
theorem Graph.Built.exists_traced_of_residual (hg : g.Built) {r : Search ℚ × NodeId}
    (hr : r ∈ g.residuals source (g.reachable source now) now) :
    ∃ c, Findings.Traced g now (g.reachable source now).size r c ∧
      PredecessorCycle r.1.previous c.nodes := by
  obtain ⟨hlinked, hwithin⟩ := hg.linked_of_residual hr
  obtain ⟨stop, hstop⟩ := Option.isSome_iff_exists.mp (Graph.isSome_stepsBack_of_residual hr)
  obtain ⟨cycle, htrace, hcycle, -⟩ := hlinked.trace hwithin hstop
  obtain ⟨c, hc⟩ := hlinked.exists_cycle? hcycle
  have hnodes := Graph.cycle?_nodes hc
  exact ⟨c, ⟨by rw [hnodes, htrace], by rw [hnodes, hc]⟩, by rw [hnodes]; exact hcycle⟩

end WebOfTrust
