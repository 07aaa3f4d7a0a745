import Mathlib
import WebOfTrust.Proofs.Graph.Live

/-!
# Views of the records

What can be asked of a graph agrees: the outgoing edges, the incoming ones, which go through the
index of sources, the look-ups of pairs, and the number of live edges.

* `Table.between`: the values from one key to another; `recordsFrom_eq_between`: the records from
  a source lie side by side, from its pair with the lowest number to that with the highest;
* `liveEdges`: all live edges; `Built.outgoing_perm`, `Built.incoming_perm`: those of a node;
* `length_eq_sum_fiber`: a list is counted by its nodes;
* **`Built.views_agree`**: the views of a graph agree.
-/

namespace WebOfTrust

variable {α : Type}

/-! ## Ranges of keys -/

/-- The values at the keys from one to another, in their order. -/
def Table.between {κ ν : Type} [Key κ] (t : Table κ ν) (low high : κ) : List ν :=
  (t.entries.filter fun entry => rank low ≤ rank entry.1 ∧ rank entry.1 ≤ rank high).map (·.2)

theorem Arc.between_iff (a : Arc) (u : NodeId) :
    rank (⟨u, 0⟩ : Arc) ≤ rank a ∧ rank a ≤ rank (⟨u, 4294967295⟩ : Arc) ↔ a.source = u := by
  have ht := a.target.toNat_lt
  have hhigh : (4294967295 : UInt32).toNat = 4294967295 := rfl
  simp only [rank, UInt32.size, UInt32.toNat_zero, hhigh]
  rw [← UInt32.toNat_inj]
  omega

theorem length_eq_sum_fiber {β : Type} (l : List β) (f : β → NodeId) :
    l.length = ∑ k : Fin UInt32.size, (l.filter fun x => f x = UInt32.ofFin k).length := by
  induction l with
  | nil => simp
  | cons x rest ih =>
    have hfirst : ∀ k : Fin UInt32.size, ((x :: rest).filter fun x => f x = UInt32.ofFin k).length =
        (rest.filter fun x => f x = UInt32.ofFin k).length +
          if (f x).toFin = k then 1 else 0 := by
      intro k
      have hk : f x = UInt32.ofFin k ↔ (f x).toFin = k := by
        constructor
        · intro h
          rw [h]
          rfl
        · rintro rfl
          rfl
      by_cases h : (f x).toFin = k <;> simp [hk, h]
    simp only [hfirst]
    rw [Finset.sum_add_distrib, ← ih, Finset.sum_ite_eq, if_pos (Finset.mem_univ _),
      List.length_cons]

namespace Graph

variable {g : Graph α} {now : Instant}

theorem recordsFrom_eq_between (g : Graph α) (u : NodeId) :
    g.recordsFrom u = g.records.between ⟨u, 0⟩ ⟨u, 4294967295⟩ := by
  unfold recordsFrom Table.between
  simp only [Arc.between_iff]

/-- All live edges, by source and then by target. -/
def liveEdges (g : Graph α) (now : Instant) : List (Edge α) :=
  (g.records.values.filter (·.isLive now)).map (·.edge)

theorem length_liveEdges (g : Graph α) (now : Instant) :
    (g.liveEdges now).length = g.liveCount now := by
  rw [liveEdges, List.length_map, liveCount, List.countP_eq_length_filter]

variable [Arith α]

theorem Built.mem_recordsFrom_iff_source (hg : g.Built) {u : NodeId} {r : Record α} :
    r ∈ g.recordsFrom u ↔ ∃ a, g.record? a = some r ∧ r.edge.source = u := by
  rw [mem_recordsFrom_iff]
  constructor
  · rintro ⟨v, hr⟩
    exact ⟨⟨u, v⟩, hr, congrArg Arc.source (hg.arc_eq hr)⟩
  · rintro ⟨a, hr, rfl⟩
    have ha := hg.arc_eq hr
    refine ⟨r.edge.target, ?_⟩
    rw [← Edge.arc, ha]
    exact hr

/-! ## All live edges -/

theorem Built.mem_liveEdges_iff (hg : g.Built) {e : Edge α} :
    e ∈ g.liveEdges now ↔ g.lookup e.arc now = some e := by
  simp only [liveEdges, Table.values, List.mem_map, List.mem_filter, Prod.exists,
    Table.mem_entries_iff, exists_eq_right]
  constructor
  · rintro ⟨r, ⟨⟨a, hr⟩, hl⟩, rfl⟩
    have ha := hg.arc_eq hr
    rw [ha]
    exact lookup_eq_some_iff.mpr ⟨r, hr, hl, rfl⟩
  · intro h
    obtain ⟨r, hr, hl, he⟩ := lookup_eq_some_iff.mp h
    exact ⟨r, ⟨⟨e.arc, hr⟩, hl⟩, he⟩

theorem Built.nodup_liveEdges (hg : g.Built) (now : Instant) : (g.liveEdges now).Nodup := by
  have harcs : g.records.entries.Pairwise fun x y => x.2.edge ≠ y.2.edge := by
    refine g.records.sorted.imp_of_mem fun {x y} hx hy hlt he => ?_
    have hxa := hg.arc_eq (Table.mem_entries_iff.mp hx)
    have hya := hg.arc_eq (Table.mem_entries_iff.mp hy)
    rw [← hxa, ← hya, he] at hlt
    exact lt_irrefl _ hlt
  apply List.pairwise_map.mpr
  apply List.Pairwise.filter
  exact List.pairwise_map.mpr harcs

theorem Built.outgoing_perm (hg : g.Built) (u : NodeId) (now : Instant) :
    (g.outgoing u now).Perm ((g.liveEdges now).filter fun e => e.source = u) := by
  have hnodup : (g.outgoing u now).Nodup :=
    nodup_of_pairwise_rank (f := fun e => e.target.toNat) (hg.pairwise_outgoing u now)
  apply (List.perm_ext_iff_of_nodup hnodup ((hg.nodup_liveEdges now).filter _)).mpr
  intro e
  rw [hg.mem_outgoing_iff, List.mem_filter, hg.mem_liveEdges_iff, decide_eq_true_eq, and_comm]

theorem Built.incoming_perm (hg : g.Built) (v : NodeId) (now : Instant) :
    (g.incoming v now).Perm ((g.liveEdges now).filter fun e => e.target = v) := by
  have hnodup : (g.incoming v now).Nodup :=
    nodup_of_pairwise_rank (f := fun e => e.source.toNat) (hg.pairwise_incoming v now)
  apply (List.perm_ext_iff_of_nodup hnodup ((hg.nodup_liveEdges now).filter _)).mpr
  intro e
  rw [hg.mem_incoming_iff, List.mem_filter, hg.mem_liveEdges_iff, decide_eq_true_eq, and_comm]

/-- **The live edges, counted by source.** -/
theorem Built.liveCount_eq_sum_outgoing (hg : g.Built) (now : Instant) :
    g.liveCount now = ∑ k : Fin UInt32.size, (g.outgoing (.ofFin k) now).length := by
  rw [← length_liveEdges, length_eq_sum_fiber _ (·.source)]
  apply Finset.sum_congr rfl
  intro k _
  exact (hg.outgoing_perm (.ofFin k) now).length_eq.symm

/-- **The live edges, counted by target.** -/
theorem Built.liveCount_eq_sum_incoming (hg : g.Built) (now : Instant) :
    g.liveCount now = ∑ k : Fin UInt32.size, (g.incoming (.ofFin k) now).length := by
  rw [← length_liveEdges, length_eq_sum_fiber _ (·.target)]
  apply Finset.sum_congr rfl
  intro k _
  exact (hg.incoming_perm (.ofFin k) now).length_eq.symm

/-! ## Agreement -/

/-- What the records and the index of sources satisfy. -/
structure WellFormed (g : Graph α) : Prop where
  /-- A record lies at the pair of its edge, with which nothing is wrong. -/
  sound : ∀ a r, g.record? a = some r → r.edge.arc = a ∧ r.edge.fault? = none
  /-- The index lists the sources that have a record. -/
  indexed : ∀ u v, (g.sourcesOf v).contains u = true ↔ ∃ r, g.record? ⟨u, v⟩ = some r
  /-- The records from a source lie side by side. -/
  contiguous : ∀ u, g.recordsFrom u = g.records.between ⟨u, 0⟩ ⟨u, 4294967295⟩
  /-- They are those of edges with this source. -/
  complete : ∀ u r, r ∈ g.recordsFrom u ↔ ∃ a, g.record? a = some r ∧ r.edge.source = u
  /-- Their targets ascend, so each is listed once. -/
  ascending : ∀ u, (g.recordsFrom u).Pairwise fun r r' => r.edge.target < r'.edge.target

/-- How the views of the live edges at some time agree. -/
structure Agrees (g : Graph α) (now : Instant) : Prop where
  /-- The outgoing edges are those that look-ups find. -/
  outgoing : ∀ u e, e ∈ g.outgoing u now ↔ g.lookup ⟨u, e.target⟩ now = some e
  /-- The incoming edges are the same. -/
  incoming : ∀ u e, e ∈ g.incoming e.target now ∧ e.source = u ↔
    g.lookup ⟨u, e.target⟩ now = some e
  /-- The targets of outgoing edges ascend, so each edge is listed once. -/
  byTarget : ∀ u, (g.outgoing u now).Pairwise fun e e' => e.target < e'.target
  /-- The sources of incoming edges ascend. -/
  bySource : ∀ v, (g.incoming v now).Pairwise fun e e' => e.source < e'.source
  /-- Over all nodes, the outgoing edges are as many as there are live ones. -/
  countOutgoing : g.liveCount now = ∑ k : Fin UInt32.size, (g.outgoing (.ofFin k) now).length
  /-- So are the incoming edges. -/
  countIncoming : g.liveCount now = ∑ k : Fin UInt32.size, (g.incoming (.ofFin k) now).length

theorem Built.wellFormed (hg : g.Built) : g.WellFormed where
  sound a r hr := ⟨hg.arc_eq hr, hg.fault?_eq_none hr⟩
  indexed u v := by rw [hg.contains_sourcesOf, Option.isSome_iff_exists]
  contiguous u := recordsFrom_eq_between g u
  complete u r := hg.mem_recordsFrom_iff_source
  ascending u := (hg.pairwise_recordsFrom u).imp UInt32.lt_iff_toNat_lt.mpr

theorem Built.agrees (hg : g.Built) (now : Instant) : g.Agrees now where
  outgoing u e := by simp [hg.lookup_iff_mem_outgoing]
  incoming u e := by
    rw [hg.mem_incoming_iff, hg.lookup_iff_mem_outgoing (u := u), hg.mem_outgoing_iff]
    simp [and_comm]
  byTarget u := (hg.pairwise_outgoing u now).imp UInt32.lt_iff_toNat_lt.mpr
  bySource v := (hg.pairwise_incoming v now).imp UInt32.lt_iff_toNat_lt.mpr
  countOutgoing := hg.liveCount_eq_sum_outgoing now
  countIncoming := hg.liveCount_eq_sum_incoming now

/-- **The views of a graph agree**, whatever changes it was built by. -/
theorem Built.views_agree (hg : g.Built) : g.WellFormed ∧ ∀ now, g.Agrees now :=
  ⟨hg.wellFormed, hg.agrees⟩

section Extremes

/-- Edges between the lowest and the highest number, one of them revoked, another one put back
after it was revoked; an edge from a node to itself. -/
def extremes : Graph Float :=
  let added := Graph.empty.addAll
    [⟨0, 4294967295, 1, 0, 0, 3, 100⟩, ⟨4294967295, 0, -1, 0, 0, 3, 100⟩,
      ⟨4294967295, 4294967295, 1, 0, 0, 3, 100⟩, ⟨0, 0, 1, 0, 0, 3, 100⟩, ⟨7, 0, 2, 0, 0, 3, 100⟩]
  let revoked := ((added.revoke ⟨0, 4294967295⟩ 3).2.revoke ⟨4294967295, 0⟩ 3).2
  ((revoked.add ⟨4294967295, 0, 1, 4, 0, 3, 100⟩).2.spend ⟨4294967295, 0⟩ 7).2

/-- The revoked edge is neither outgoing nor incoming, and the one put back is both. -/
theorem views_agree_extremes :
    extremes.Built ∧ (extremes.sourcesOf 4294967295).contains 0 = true ∧
      (∃ r, extremes.record? ⟨0, 4294967295⟩ = some r) ∧
      (∃ e, e ∈ extremes.incoming 0 5 ∧ e ∈ extremes.outgoing 4294967295 5) ∧
      ∑ k : Fin UInt32.size, (extremes.outgoing (.ofFin k) 5).length = 3 ∧
      ∑ k : Fin UInt32.size, (extremes.incoming (.ofFin k) 5).length = 3 := by
  have hbuilt : extremes.Built :=
    ((((Graph.Built.empty.addAll _).revoke _ _).revoke _ _).add _).spend _ _
  obtain ⟨hwell, hviews⟩ := hbuilt.views_agree
  have hindexed : (extremes.sourcesOf 4294967295).contains 0 = true := by decide +kernel
  have hcount : extremes.liveCount 5 = 3 := by decide +kernel
  have hlive : (extremes.lookup ⟨4294967295, 0⟩ 5).isSome = true := by decide +kernel
  obtain ⟨e, he⟩ := Option.isSome_iff_exists.mp hlive
  have htarget : e.target = 0 := congrArg Arc.target (hbuilt.arc_of_lookup he)
  rw [← htarget] at he
  have hincoming := (((hviews 5).incoming 4294967295 e).mpr he).1
  rw [htarget] at hincoming
  refine ⟨hbuilt, hindexed, (hwell.indexed _ _).mp hindexed, ⟨e, hincoming, ?_⟩, ?_, ?_⟩
  · exact ((hviews 5).outgoing _ e).mpr he
  · rw [← (hviews 5).countOutgoing, hcount]
  · rw [← (hviews 5).countIncoming, hcount]

end Extremes

end Graph

end WebOfTrust
