import WebOfTrust.Proofs.Betrayal.Soundness

/-!
# Relaxation over exact rationals

Without rounding, distances only go down, an edge that was just relaxed offers nothing, and the
distances cancel out along a closed walk.

* `Search.exists_le_of_relax`, `Search.relax?_eq_none_of_relax`: an edge comes to offer something
  only when its own source is relaxed;
* `Graph.ClosedWalk.sum_reduced`: the risks of a closed walk, reduced by distances;
* `Search.Settled`: no edge offers anything; **`Search.Settled.risk_ge`**: no closed walk within
  reach is then worse than its slack.
-/

namespace WebOfTrust

variable {g : Graph ℚ} {now : Instant}

namespace Search

variable {s s' : Search ℚ} {e f : Edge ℚ}

theorem slack_pos : 0 < (slack : ℚ) := by
  norm_num [slack, Arith.ratio]

theorem neg_of_lt_slack {x : ℚ} (h : x < -slack) : x < 0 :=
  h.trans (neg_neg_of_pos slack_pos)

theorem relax?_eq_none_iff_le :
    s.relax? e = none ↔ ∀ d, s.distance.get? e.source = some d →
      ∃ known, s.distance.get? e.target = some known ∧ known - slack ≤ d + e.risk := by
  rw [relax?_eq_none_iff, offer?]
  cases s.distance.get? e.source with
  | none => simp
  | some d =>
    cases s.distance.get? e.target with
    | none => simp
    | some known => simp [not_lt]

theorem offer?_spec {x : ℚ} (h : s.offer? e = some x) :
    ∃ d, s.distance.get? e.source = some d ∧ x = d + e.risk ∧
      ∀ known, s.distance.get? e.target = some known → x < known - slack := by
  unfold offer? at h
  cases hd : s.distance.get? e.source with
  | none => simp [hd] at h
  | some d =>
    cases hk : s.distance.get? e.target with
    | none =>
      simp only [hd, hk, Option.some.injEq] at h
      exact ⟨d, rfl, h.symm, by simp⟩
    | some known =>
      simp only [hd, hk] at h
      split_ifs at h with hlt
      cases h
      refine ⟨d, rfl, rfl, ?_⟩
      rintro _ ⟨⟩
      exact hlt

theorem exists_le_of_relax (h : s.relax? e = some s') {v : NodeId} {known : ℚ}
    (hv : s.distance.get? v = some known) :
    ∃ known', s'.distance.get? v = some known' ∧ known' ≤ known := by
  obtain ⟨x, hx, hdist, -⟩ := relax?_spec h
  obtain ⟨d, -, -, hlt⟩ := offer?_spec hx
  rw [hdist]
  split_ifs with hvt
  · subst hvt
    have := hlt known hv
    have := slack_pos
    exact ⟨x, rfl, by linarith⟩
  · exact ⟨known, hv, le_rfl⟩

theorem relax?_eq_none_of_relax (h : s.relax? e = some s') (hf : f.source ≠ e.target)
    (hnone : s.relax? f = none) : s'.relax? f = none := by
  rw [relax?_eq_none_iff_le] at hnone ⊢
  obtain ⟨x, -, hdist, -⟩ := relax?_spec h
  intro d hd
  rw [hdist, if_neg hf] at hd
  obtain ⟨known, hknown, hle⟩ := hnone d hd
  obtain ⟨known', hknown', hle'⟩ := exists_le_of_relax h hknown
  exact ⟨known', hknown', by linarith⟩

theorem relax?_self_eq_none (h : s.relax? e = some s') (hne : e.source ≠ e.target) :
    s'.relax? e = none := by
  rw [relax?_eq_none_iff_le]
  obtain ⟨x, hx, hdist, -⟩ := relax?_spec h
  obtain ⟨d, hd, rfl, -⟩ := offer?_spec hx
  intro d' hd'
  rw [hdist, if_neg hne, hd] at hd'
  cases hd'
  have := slack_pos
  exact ⟨d + e.risk, by rw [hdist, if_pos rfl], by linarith⟩

/-- The distance of a node, zero where none is known. -/
def level (s : Search ℚ) (v : NodeId) : ℚ := (s.distance.get? v).getD 0

theorem level_eq {v : NodeId} {d : ℚ} (h : s.distance.get? v = some d) : s.level v = d := by
  rw [level, h, Option.getD_some]

end Search

/-! ## Sums along closed walks -/

theorem foldl_risk (edges : List (Edge ℚ)) :
    edges.foldl (fun sum e => sum + e.risk) 0 = (edges.map (·.risk)).sum := by
  rw [List.sum_eq_foldl, List.foldl_map]

/-- **Distances cancel out along a closed walk.** -/
theorem Graph.ClosedWalk.sum_reduced {edges : List (Edge ℚ)} (h : g.ClosedWalk now edges)
    (d : NodeId → ℚ) :
    (edges.map fun e => d e.source + e.risk - d e.target).sum = (edges.map (·.risk)).sum := by
  have hsplit : ∀ l : List (Edge ℚ), (l.map fun e => d e.source + e.risk - d e.target).sum =
      ((l.map (·.source)).map d).sum + (l.map (·.risk)).sum - ((l.map (·.target)).map d).sum := by
    intro l
    induction l with
    | nil => simp
    | cons e rest ih =>
      simp only [List.map_cons, List.sum_cons, ih]
      ring
  rw [hsplit, h.sum_target d]
  ring

/-! ## Settled searches -/

/-- The distances of a search that knows its source when no edge offers anything. -/
structure Search.Settled (edges : List (Edge ℚ)) (source : NodeId) (s : Search ℚ) : Prop where
  source : (s.distance.get? source).isSome = true
  none : ∀ e ∈ edges, s.relax? e = none

section Settled

variable {s : Search ℚ} {source : NodeId}

theorem Search.Settled.isSome_of_reaches (hg : g.Built)
    (hs : s.Settled (g.edgesWithin (g.reachable source now) now) source) {v : NodeId}
    (hv : g.Reaches now source v) : (s.distance.get? v).isSome = true := by
  induction hv with
  | refl => exact hs.source
  | @tail u w hu hstep ih =>
    obtain ⟨e, he⟩ := hstep
    have harc := hg.arc_of_lookup he
    obtain ⟨hsource, htarget⟩ : e.source = u ∧ e.target = w :=
      ⟨congrArg Arc.source harc, congrArg Arc.target harc⟩
    have hmem : e ∈ g.edgesWithin (g.reachable source now) now := by
      rw [hg.mem_edgesWithin_iff, hsource, harc]
      exact ⟨(hg.contains_reachable source now u).mpr hu, he⟩
    obtain ⟨d, hd⟩ := Option.isSome_iff_exists.mp ih
    rw [← hsource] at hd
    obtain ⟨known, hknown, -⟩ := Search.relax?_eq_none_iff_le.mp (hs.none e hmem) d hd
    rw [← htarget, hknown]
    rfl

/-- **In a settled search no closed walk within reach is worse than its slack.** -/
theorem Search.Settled.risk_ge (hg : g.Built)
    (hs : s.Settled (g.edgesWithin (g.reachable source now) now) source) {walk : List (Edge ℚ)}
    (hwalk : g.ClosedWalk now walk) (hreach : ∀ e ∈ walk, g.Reaches now source e.source) :
    -(walk.length * slack) ≤ (walk.map (·.risk)).sum := by
  have hstep : ∀ e ∈ walk, -slack ≤ s.level e.source + e.risk - s.level e.target := by
    intro e he
    have hmem : e ∈ g.edgesWithin (g.reachable source now) now :=
      hg.mem_edgesWithin_iff.mpr
        ⟨(hg.contains_reachable source now _).mpr (hreach e he), hwalk.live e he⟩
    obtain ⟨d, hd⟩ := Option.isSome_iff_exists.mp (hs.isSome_of_reaches hg (hreach e he))
    obtain ⟨known, hknown, hle⟩ := Search.relax?_eq_none_iff_le.mp (hs.none e hmem) d hd
    rw [Search.level_eq hd, Search.level_eq hknown]
    linarith
  have hsum := List.card_nsmul_le_sum
    (walk.map fun e => s.level e.source + e.risk - s.level e.target) (-slack) (by
      intro x hx
      obtain ⟨e, he, rfl⟩ := List.mem_map.mp hx
      exact hstep e he)
  rw [hwalk.sum_reduced, List.length_map, nsmul_eq_mul] at hsum
  linarith

end Settled

end WebOfTrust
