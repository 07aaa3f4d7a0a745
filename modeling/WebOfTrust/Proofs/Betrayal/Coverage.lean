import Mathlib
import WebOfTrust.Proofs.Betrayal.Scores
import WebOfTrust.Proofs.Context.Reached

/-!
# Coverage shrinks

Live edges only end, until one is put again, and records stay for good. So the nodes within reach
grow fewer as time passes, and lie among those once reachable, which grow more. The coverage of a
source compares the two.

* `KeySet.peers`: the nodes of a set other than the source;
* `lookup_of_le`, `Built.reachable_antitone`: reach at a later time;
* `lookup_of_revoke`, `Built.reachable_revoke_subset`, `Built.historical_revoke`: reach after a
  revocation;
* `Built.coverage_eq`: coverage as a ratio of peers; `Built.coverage_le_coverage`,
  `Built.coverage_le_one`, `Built.coverage_eq_one_iff`;
* **`Built.coverage_shrinks`**: coverage in time and in history.
-/

namespace WebOfTrust

/-! ## Sets of keys -/

namespace KeySet

variable {κ : Type} [Key κ]

instance : HasSubset (KeySet κ) := ⟨fun s t => ∀ k, s.contains k = true → t.contains k = true⟩

/-- The nodes of a set other than a source. -/
def peers (s : KeySet NodeId) (source : NodeId) : Finset NodeId := s.keys.toFinset.erase source

variable {s t : KeySet NodeId} {source v : NodeId}

theorem mem_peers : v ∈ s.peers source ↔ v ≠ source ∧ s.contains v = true := by
  rw [peers, Finset.mem_erase, List.mem_toFinset, Table.mem_keys_iff]

theorem peers_subset (h : s ⊆ t) : s.peers source ⊆ t.peers source := by
  intro v hv
  rw [mem_peers] at hv ⊢
  exact ⟨hv.1, h v hv.2⟩

theorem eq_of_peers_eq (hs : s.contains source = true) (ht : t.contains source = true)
    (h : s.peers source = t.peers source) : s = t := by
  refine ext_contains fun v => ?_
  by_cases hv : v = source
  · rw [hv]
    exact iff_of_true hs ht
  · have hmem := congrArg (v ∈ ·) h
    simpa [mem_peers, hv] using hmem

theorem length_filter_keys (p : NodeId → Bool) :
    (s.keys.filter p).length = (s.keys.toFinset.filter fun v => p v = true).card := by
  have hnodup : (s.keys.filter p).Nodup := s.pairwise_keys.filter p
  rw [← List.toFinset_filter, List.toFinset_card_of_nodup hnodup]

end KeySet

/-! ## Reach in time -/

variable {α : Type}

theorem Record.isLive_of_le {r : Record α} {t t' : Instant} (h : t ≤ t')
    (hr : r.isLive t' = true) : r.isLive t = true := by
  simp only [isLive, Edge.isExpired, Bool.and_eq_true, Bool.not_eq_true',
    decide_eq_false_iff_not, UInt64.not_le] at hr ⊢
  exact ⟨hr.1, UInt64.lt_of_le_of_lt h hr.2⟩

theorem Record.isLive_of_revoke {r : Record α} {t now : Instant}
    (hr : (r.revoke t).isLive now = true) : r.isLive now = true := by
  unfold Record.revoke at hr
  split_ifs at hr with hl
  · simp [isLive, isRevoked] at hr
  · exact hr

namespace Graph

section Reach

variable [Arith α] {g : Graph α} {source : NodeId} {a b : Arc} {t t' now : Instant} {e : Edge α}

omit [Arith α] in
theorem lookup_of_le (h : t ≤ t') (he : g.lookup a t' = some e) : g.lookup a t = some e := by
  obtain ⟨r, hr, hl, rfl⟩ := lookup_eq_some_iff.mp he
  exact lookup_eq_some_iff.mpr ⟨r, hr, r.isLive_of_le h hl, rfl⟩

omit [Arith α] in
theorem lookup_of_revoke (he : (g.revoke a t).2.lookup b now = some e) :
    g.lookup b now = some e := by
  obtain ⟨r, hr, hl, rfl⟩ := lookup_eq_some_iff.mp he
  rw [record?_revoke] at hr
  split_ifs at hr with hab
  · obtain ⟨r₀, hr₀, rfl⟩ := Option.map_eq_some_iff.mp hr
    rw [hab]
    exact lookup_eq_some_iff.mpr ⟨r₀, hr₀, Record.isLive_of_revoke hl, (r₀.revoke_edge t).symm⟩
  · exact lookup_eq_some_iff.mpr ⟨r, hr, hl, rfl⟩

theorem Built.reachable_subset {g' : Graph α} (hg : g.Built) (hg' : g'.Built)
    (h : ∀ a e, g'.lookup a t' = some e → g.lookup a t = some e) (source : NodeId) :
    g'.reachable source t' ⊆ g.reachable source t := by
  intro v hv
  rw [hg'.contains_reachable] at hv
  rw [hg.contains_reachable]
  refine Relation.ReflTransGen.mono (fun u w hstep => ?_) _ _ hv
  exact hstep.imp (h ⟨u, w⟩)

theorem Built.reachable_antitone (hg : g.Built) (source : NodeId) (h : t ≤ t') :
    g.reachable source t' ⊆ g.reachable source t :=
  hg.reachable_subset hg (fun _ _ => lookup_of_le h) source

theorem Built.reachable_revoke_subset (hg : g.Built) (source : NodeId) (a : Arc)
    (t now : Instant) : (g.revoke a t).2.reachable source now ⊆ g.reachable source now :=
  hg.reachable_subset (hg.revoke a t) (fun _ _ => lookup_of_revoke) source

theorem Built.reachable_subset_historical (hg : g.Built) (source : NodeId) (now : Instant) :
    g.reachable source now ⊆ g.historical source := by
  intro v hv
  rw [hg.contains_reachable] at hv
  rw [hg.contains_historical]
  exact hv.ever

theorem Built.historical_subset_after (hg : g.Built) (source : NodeId)
    (changes : List (Change α)) : g.historical source ⊆ (g.after changes).historical source := by
  intro v hv
  rw [hg.contains_historical] at hv
  rw [(hg.after changes).contains_historical]
  exact hv.after changes

theorem Built.historical_revoke (hg : g.Built) (source : NodeId) (a : Arc) (t : Instant) :
    (g.revoke a t).2.historical source = g.historical source := by
  refine KeySet.ext_contains fun v => ?_
  have hrecord : ∀ b, (∃ r, (g.revoke a t).2.record? b = some r) ↔ ∃ r, g.record? b = some r := by
    intro b
    rw [← Option.isSome_iff_exists, ← Option.isSome_iff_exists]
    exact (isSome_record?_change (.revoke a t) b).trans (or_iff_left (by simp [Inserted]))
  rw [(hg.revoke a t).contains_historical, hg.contains_historical, EverReaches, EverReaches]
  simp only [hrecord]

end Reach

/-! ## Coverage -/

variable {g : Graph ℚ} {source : NodeId} {t t' now : Instant}

/-- **Coverage is a ratio of peers**: of those within reach to those once reachable. -/
theorem Built.coverage_eq (hg : g.Built) (source : NodeId) (now : Instant) :
    g.coverage source now =
      if ((g.historical source).peers source).card = 0 then 1
      else (((g.reachable source now).peers source).card : ℚ) /
        ((g.historical source).peers source).card := by
  have hexpected : ((g.historical source).keys.filter (· ≠ source)).length =
      ((g.historical source).peers source).card := by
    rw [KeySet.length_filter_keys]
    congr 1
    ext v
    simp [KeySet.mem_peers, Table.mem_keys_iff, and_comm]
  have hlive : ((g.reachable source now).keys.filter fun n =>
      n ≠ source ∧ (g.historical source).contains n).length =
      ((g.reachable source now).peers source).card := by
    rw [KeySet.length_filter_keys]
    congr 1
    ext v
    -- The test for nodes once reachable is met by every node within reach.
    have hv := hg.reachable_subset_historical source now v
    simp only [Finset.mem_filter, List.mem_toFinset, Table.mem_keys_iff, decide_eq_true_eq,
      KeySet.mem_peers]
    tauto
  rw [coverage, coverageWithin]
  dsimp only
  rw [hexpected, hlive]

theorem Built.card_peers_le (hg : g.Built) (source : NodeId) (now : Instant) :
    ((g.reachable source now).peers source).card ≤ ((g.historical source).peers source).card :=
  Finset.card_le_card (KeySet.peers_subset (hg.reachable_subset_historical source now))

theorem Built.coverage_le_coverage {g' : Graph ℚ} (hg : g.Built) (hg' : g'.Built)
    (hhistorical : g'.historical source = g.historical source)
    (hreach : g'.reachable source t' ⊆ g.reachable source t) :
    g'.coverage source t' ≤ g.coverage source t := by
  rw [hg.coverage_eq, hg'.coverage_eq, hhistorical]
  split_ifs
  · exact le_rfl
  · have hcard : ((g'.reachable source t').peers source).card ≤
        ((g.reachable source t).peers source).card :=
      Finset.card_le_card (KeySet.peers_subset hreach)
    gcongr

theorem Built.coverage_le_one (hg : g.Built) (source : NodeId) (now : Instant) :
    g.coverage source now ≤ 1 := by
  rw [hg.coverage_eq]
  split_ifs
  · exact le_rfl
  · exact div_le_one_of_le₀ (Nat.cast_le.mpr (hg.card_peers_le source now)) (Nat.cast_nonneg _)

/-- **Coverage is full when the nodes once reachable are all within reach.** -/
theorem Built.coverage_eq_one_iff (hg : g.Built) (source : NodeId) (now : Instant) :
    g.coverage source now = 1 ↔ g.reachable source now = g.historical source := by
  have hsubset := hg.reachable_subset_historical source now
  have hle := hg.card_peers_le source now
  have hcard : g.coverage source now = 1 ↔
      ((g.historical source).peers source).card ≤ ((g.reachable source now).peers source).card := by
    rw [hg.coverage_eq]
    split_ifs with hzero
    · simp [hzero]
    · rw [div_eq_one_iff_eq (Nat.cast_ne_zero.mpr hzero), Nat.cast_inj]
      omega
  rw [hcard]
  constructor
  · intro h
    have hself := hg.contains_reachable_self source now
    exact KeySet.eq_of_peers_eq hself (hsubset source hself)
      (Finset.eq_of_subset_of_card_le (KeySet.peers_subset hsubset) h)
  · intro h
    rw [h]

/-- **Coverage shrinks in time**, revocations do not raise it, and no peer is forgotten. -/
theorem Built.coverage_shrinks (hg : g.Built) (source : NodeId) :
    (∀ t t', t ≤ t' → g.reachable source t' ⊆ g.reachable source t ∧
      g.coverage source t' ≤ g.coverage source t) ∧
    (∀ t, g.reachable source t ⊆ g.historical source ∧ 0 ≤ g.coverage source t ∧
      g.coverage source t ≤ 1 ∧
      (g.coverage source t = 1 ↔ g.reachable source t = g.historical source)) ∧
    (∀ a t now, (g.revoke a t).2.coverage source now ≤ g.coverage source now) ∧
    (∀ changes, g.historical source ⊆ (g.after changes).historical source) ∧
    ∀ [Logarithm ℚ] (c : Context ℚ) (ops : List (Operation ℚ)), c.graph = g →
      g.historical source ⊆ (c.run ops).2.graph.historical source := by
  refine ⟨fun t t' h => ?_, fun t => ?_, fun a t now => ?_, hg.historical_subset_after source, ?_⟩
  · have hreach := hg.reachable_antitone source h
    exact ⟨hreach, hg.coverage_le_coverage hg rfl hreach⟩
  · exact ⟨hg.reachable_subset_historical source t, coverage_nonneg, hg.coverage_le_one source t,
      hg.coverage_eq_one_iff source t⟩
  · exact hg.coverage_le_coverage (hg.revoke a t) (hg.historical_revoke source a t)
      (hg.reachable_revoke_subset source a t now)
  · rintro _ c ops rfl
    obtain ⟨changes, hafter⟩ := c.exists_after_run ops
    rw [hafter]
    exact hg.historical_subset_after source changes

section Waning

/-- One node trusts a second one, which trusts itself, and for a shorter time a third one. -/
def waning : Graph ℚ :=
  empty.addAll [⟨1, 2, 1 / 2, 0, 1, 3, 100⟩, ⟨2, 2, 1, 0, 2, 3, 100⟩, ⟨2, 3, 1 / 2, 0, 3, 3, 50⟩]

/-- Half of the peers is lost when the shorter trust ends or is revoked, and none is forgotten. -/
theorem coverage_shrinks_waning :
    let start : Context ℚ := .ofConfig Identity.preferred Config.default 0
    let c := { start with graph := waning }
    let _ := aboveOne
    waning.Built ∧ waning.coverage 1 60 ≤ waning.coverage 1 10 ∧
    waning.reachable 1 10 = waning.historical 1 ∧ waning.coverage 1 60 = 1 / 2 ∧
    waning.reachable 1 60 ≠ waning.historical 1 ∧
    (waning.revoke ⟨2, 3⟩ 10).2.coverage 1 10 ≤ waning.coverage 1 10 ∧
    (waning.revoke ⟨2, 3⟩ 10).2.coverage 1 10 = 1 / 2 ∧
    ((c.run [.revoke ⟨1, 2⟩, .add ⟨1, 4, 1, 0, 4, 3, 100⟩]).2.graph.historical 1).contains 3 =
      true := by
  intro start c _
  have hbuilt : waning.Built := Built.empty.addAll _
  obtain ⟨htime, hone, hrevoke, -, hrun⟩ := hbuilt.coverage_shrinks 1
  have hearly : waning.coverage 1 10 = 1 := by decide +kernel
  have hlate : waning.coverage 1 60 = 1 / 2 := by decide +kernel
  obtain ⟨-, -, -, hfull⟩ := hone 60
  refine ⟨hbuilt, (htime 10 60 (by decide)).2, (hone 10).2.2.2.mp hearly, hlate, ?_,
    hrevoke ⟨2, 3⟩ 10 10, by decide +kernel, hrun c _ rfl 3 (by decide +kernel)⟩
  intro hsame
  have hcovered := hfull.mpr hsame
  rw [hlate] at hcovered
  norm_num at hcovered

end Waning

end Graph

end WebOfTrust
