import Mathlib
import WebOfTrust.Reputation
import WebOfTrust.Proofs.Graph.Reach

/-!
# Live edges decide

The lists of live edges into and out of a node are two views of the same look-ups, each in the
order of the other end. So what a graph answers at some time depends on its live edges alone.

* `Built.contains_sourcesOf`: the index of sources follows the records;
* `Built.mem_incoming_iff`, `Built.pairwise_recordsFrom`, `Built.pairwise_outgoing`,
  `Built.pairwise_incoming`: the lists;
* `Built.outgoing_congr`, **`Built.reachable_congr`**, `Built.reputation_congr`: graphs with the
  same live edges answer alike;
* `Omits`: a graph without the record of a pair; `Built.exists_omits`, `Omits.lookup_eq`.
-/

namespace WebOfTrust

variable {α : Type}

theorem KeySet.ext_contains {κ : Type} [Key κ] {s t : KeySet κ}
    (h : ∀ k, s.contains k = true ↔ t.contains k = true) : s = t := by
  refine Table.ext_get? fun k => ?_
  have hk := h k
  simp only [Table.contains] at hk
  cases hs : s.get? k <;> cases ht : t.get? k <;> simp_all

theorem eq_of_pairwise_rank {β : Type} {f : β → ℕ} {l l' : List β}
    (h : l.Pairwise (f · < f ·)) (h' : l'.Pairwise (f · < f ·)) (hmem : ∀ x, x ∈ l ↔ x ∈ l') :
    l = l' := by
  have : Std.Irrefl fun x y : β => f x < f y := ⟨fun x => lt_irrefl (f x)⟩
  have : Std.Antisymm fun x y : β => f x < f y := ⟨fun _ _ hxy hyx => absurd hxy hyx.asymm⟩
  exact h.eq_of_mem_iff h' hmem

theorem nodup_of_pairwise_rank {β : Type} {f : β → ℕ} {l : List β} (h : l.Pairwise (f · < f ·)) :
    l.Nodup := by
  refine h.imp fun {x y} hlt hxy => ?_
  rw [hxy] at hlt
  exact lt_irrefl _ hlt

namespace Graph

variable {g g' : Graph α} {now : Instant}

/-! ## The index of sources -/

theorem contains_sourcesOf_put (e : Edge α) (u v : NodeId) :
    ((g.put e).sourcesOf v).contains u = true ↔ (g.sourcesOf v).contains u = true ∨
      g.record? e.arc = none ∧ u = e.source ∧ v = e.target := by
  unfold put
  cases hr : g.record? e.arc with
  | some r => simp [sourcesOf]
  | none =>
    by_cases hv : v = e.target
    · subst hv
      have hadd : Graph.sourcesOf ⟨g.records.insert e.arc (Record.ofEdge e),
          g.sources.insert e.target ((g.sourcesOf e.target).add e.source)⟩ e.target =
          (g.sourcesOf e.target).add e.source := by
        rw [sourcesOf, Table.get?_insert_self, Option.getD_some]
      dsimp only
      rw [hadd, KeySet.contains_add]
      simp [or_comm]
    · simp [sourcesOf, Table.get?_insert_of_ne _ _ hv, hv]

theorem sources_revoke (a : Arc) (t : Instant) : (g.revoke a t).2.sources = g.sources := by
  unfold revoke
  repeat' split
  all_goals rfl

theorem sources_spend (a : Arc) (nonce : UInt64) : (g.spend a nonce).2.sources = g.sources := by
  unfold spend
  split <;> rfl

theorem isSome_record?_put (e : Edge α) (a : Arc) :
    ((g.put e).record? a).isSome = true ↔ a = e.arc ∨ (g.record? a).isSome = true := by
  rw [record?_put]
  by_cases h : a = e.arc <;> simp [h]

variable [Arith α]

/-- **The index of sources follows the records.** -/
theorem Built.contains_sourcesOf (hg : g.Built) {u v : NodeId} :
    (g.sourcesOf v).contains u = true ↔ (g.record? ⟨u, v⟩).isSome = true := by
  induction hg with
  | empty => exact iff_of_false (by simp [sourcesOf, Graph.empty, Table.contains]) (by simp)
  | @add g hg e ih =>
    rw [add_snd]
    split_ifs with hf
    · exact ih
    · rw [contains_sourcesOf_put, isSome_record?_put, ih]
      by_cases ha : (⟨u, v⟩ : Arc) = e.arc
      · -- The pair of the edge is new to the index just when it has no record.
        obtain ⟨hu, hv⟩ := Arc.mk.inj ha
        rw [← ha]
        cases hr : g.record? ⟨u, v⟩ <;> simp [hu, hv]
      · have hne : ¬ (u = e.source ∧ v = e.target) := fun h => ha (congrArg₂ Arc.mk h.1 h.2)
        simp only [hne, and_false, or_false, ha, false_or]
  | @revoke g hg a t ih =>
    unfold sourcesOf at ih ⊢
    rw [sources_revoke, ih, record?_revoke]
    split_ifs with ha
    · rw [ha, Option.isSome_map]
    · rfl
  | @spend g hg a nonce ih =>
    unfold sourcesOf at ih ⊢
    rw [sources_spend, ih, record?_spend]
    split_ifs with ha
    · rw [ha, Option.isSome_map]
    · rfl

/-! ## Two lists of the same edges -/

/-- **The incoming list holds the live edges that enter a node.** -/
theorem Built.mem_incoming_iff (hg : g.Built) {v : NodeId} {e : Edge α} :
    e ∈ g.incoming v now ↔ e.target = v ∧ g.lookup e.arc now = some e := by
  rw [incoming, List.mem_filterMap]
  constructor
  · rintro ⟨u, -, hl⟩
    have ha := hg.arc_of_lookup hl
    rw [ha]
    exact ⟨congrArg Arc.target ha, hl⟩
  · rintro ⟨rfl, hl⟩
    obtain ⟨r, hr, -⟩ := lookup_eq_some_iff.mp hl
    have hsome : (g.record? ⟨e.source, e.target⟩).isSome = true := by
      rw [← Edge.arc, hr]
      rfl
    exact ⟨e.source, Table.mem_keys_iff.mpr (hg.contains_sourcesOf.mpr hsome), hl⟩

theorem Built.mem_incoming_of_lookup (hg : g.Built) {a : Arc} {e : Edge α}
    (he : g.lookup a now = some e) : e ∈ g.incoming a.target now := by
  obtain rfl := hg.arc_of_lookup he
  exact hg.mem_incoming_iff.mpr ⟨rfl, he⟩

theorem Built.pairwise_recordsFrom (hg : g.Built) (u : NodeId) :
    (g.recordsFrom u).Pairwise fun r r' => r.edge.target.toNat < r'.edge.target.toNat := by
  have htarget : ∀ x ∈ g.records.entries, x.2.edge.target = x.1.target := fun x hx =>
    congrArg Arc.target (hg.arc_eq (Table.mem_entries_iff.mp hx))
  rw [recordsFrom, List.pairwise_map]
  refine (g.records.sorted.filter _).imp_of_mem fun {x y} hx hy hlt => ?_
  simp only [List.mem_filter, decide_eq_true_eq] at hx hy
  rw [htarget x hx.1, htarget y hy.1]
  simp only [rank, hx.2, hy.2] at hlt
  omega

theorem Built.pairwise_outgoing (hg : g.Built) (u : NodeId) (now : Instant) :
    (g.outgoing u now).Pairwise fun e e' => e.target.toNat < e'.target.toNat := by
  rw [outgoing, List.pairwise_map]
  apply List.Pairwise.filter
  exact hg.pairwise_recordsFrom u

theorem Built.pairwise_incoming (hg : g.Built) (v : NodeId) (now : Instant) :
    (g.incoming v now).Pairwise fun e e' => e.source.toNat < e'.source.toNat := by
  have hkeys : (g.sourcesOf v).keys.Pairwise fun u u' => u.toNat < u'.toNat :=
    List.pairwise_map.mpr (g.sourcesOf v).sorted
  refine hkeys.filterMap _ fun u u' hlt e he e' he' => ?_
  have hu := congrArg Arc.source (hg.arc_of_lookup he)
  have hu' := congrArg Arc.source (hg.arc_of_lookup he')
  simp only [Edge.arc] at hu hu'
  rw [hu, hu']
  exact hlt

/-! ## Graphs with the same live edges -/

theorem Built.outgoing_congr (hg : g.Built) (hg' : g'.Built) {u : NodeId}
    (h : ∀ v, g.lookup ⟨u, v⟩ now = g'.lookup ⟨u, v⟩ now) :
    g.outgoing u now = g'.outgoing u now := by
  refine eq_of_pairwise_rank (f := fun e => e.target.toNat) (hg.pairwise_outgoing u now)
    (hg'.pairwise_outgoing u now) fun e => ?_
  rw [hg.mem_outgoing_iff, hg'.mem_outgoing_iff]
  refine and_congr_right fun hu => ?_
  rw [Edge.arc, hu, h]

theorem Built.incoming_congr (hg : g.Built) (hg' : g'.Built) {v : NodeId}
    (h : ∀ u, g.lookup ⟨u, v⟩ now = g'.lookup ⟨u, v⟩ now) :
    g.incoming v now = g'.incoming v now := by
  refine eq_of_pairwise_rank (f := fun e => e.source.toNat) (hg.pairwise_incoming v now)
    (hg'.pairwise_incoming v now) fun e => ?_
  rw [hg.mem_incoming_iff, hg'.mem_incoming_iff]
  refine and_congr_right fun hv => ?_
  rw [Edge.arc, hv, h]

omit [Arith α] in
/-- Walks from a source use the live edges that leave the nodes within its reach. -/
theorem reaches_congr {source : NodeId}
    (h : ∀ u, g.Reaches now source u → ∀ v, g.lookup ⟨u, v⟩ now = g'.lookup ⟨u, v⟩ now)
    (v : NodeId) : g.Reaches now source v ↔ g'.Reaches now source v := by
  apply reflTransGen_congr
  intro u hu v
  rw [h u hu v]

/-- **Graphs whose live edges agree within reach have the same reach.** -/
theorem Built.reachable_congr (hg : g.Built) (hg' : g'.Built) {source : NodeId}
    (h : ∀ u, g.Reaches now source u → ∀ v, g.lookup ⟨u, v⟩ now = g'.lookup ⟨u, v⟩ now) :
    g.reachable source now = g'.reachable source now := by
  refine KeySet.ext_contains fun v => ?_
  rw [hg.contains_reachable, hg'.contains_reachable]
  exact reaches_congr h v

theorem Built.reputation_congr (hg : g.Built) (hg' : g'.Built) {node : NodeId}
    (h : ∀ u, g.lookup ⟨u, node⟩ now = g'.lookup ⟨u, node⟩ now)
    (settings : ReputationSettings α) :
    g.reputation settings node now = g'.reputation settings node now := by
  unfold reputation tally
  rw [hg.incoming_congr hg' h]

/-! ## A graph without a pair -/

/-- A graph has the records of another one, but none for a pair. -/
def Omits (g' : Graph α) (a : Arc) (g : Graph α) : Prop :=
  ∀ b, g'.record? b = if b = a then none else g.record? b

omit [Arith α] in
theorem Omits.of_eq {a : Arc} {g₁ : Graph α} (h : g'.Omits a g)
    (h₁ : ∀ b, b ≠ a → g₁.record? b = g.record? b) : g'.Omits a g₁ := by
  intro b
  rw [h b]
  split_ifs with hb
  · rfl
  · exact (h₁ b hb).symm

omit [Arith α] in
theorem Omits.change {a c : Arc} {g₁ g₁' : Graph α} (h : g'.Omits a g) (hc : c ≠ a)
    (f : Option (Record α) → Option (Record α))
    (h₁ : ∀ b, g₁.record? b = if b = c then f (g.record? c) else g.record? b)
    (h₁' : ∀ b, g₁'.record? b = if b = c then f (g'.record? c) else g'.record? b) :
    g₁'.Omits a g₁ := by
  intro b
  rw [h₁, h₁', h b, h c, if_neg hc]
  by_cases hb : b = c
  · rw [if_pos hb, if_pos hb, if_neg (hb.trans_ne hc)]
  · rw [if_neg hb, if_neg hb]

theorem Built.exists_omits (hg : g.Built) (a : Arc) :
    ∃ g' : Graph α, g'.Built ∧ g'.Omits a g := by
  induction hg with
  | empty => exact ⟨Graph.empty, .empty, fun b => by simp⟩
  | @add g _ e ih =>
    obtain ⟨g', hg', h⟩ := ih
    rw [add_snd]
    split_ifs with hf
    · exact ⟨g', hg', h⟩
    have hadd : (g'.add e).2 = g'.put e := by rw [add_snd, if_neg hf]
    by_cases ha : e.arc = a
    · refine ⟨g', hg', h.of_eq fun b hb => ?_⟩
      rw [record?_put, ha, if_neg hb]
    · exact ⟨g'.put e, hadd ▸ hg'.add e, h.change ha
        (fun r => some ⟨e, none, (r.map Record.spent).getD Table.empty⟩) (record?_put e)
        (record?_put e)⟩
  | @revoke g _ c t ih =>
    obtain ⟨g', hg', h⟩ := ih
    by_cases ha : c = a
    · refine ⟨g', hg', h.of_eq fun b hb => ?_⟩
      rw [record?_revoke, ha, if_neg hb]
    · exact ⟨(g'.revoke c t).2, hg'.revoke c t, h.change ha
        (fun r => r.map (Record.revoke t)) (record?_revoke c t) (record?_revoke c t)⟩
  | @spend g _ c nonce ih =>
    obtain ⟨g', hg', h⟩ := ih
    by_cases ha : c = a
    · refine ⟨g', hg', h.of_eq fun b hb => ?_⟩
      rw [record?_spend, ha, if_neg hb]
    · exact ⟨(g'.spend c nonce).2, hg'.spend c nonce, h.change ha
        (fun r => r.map fun r => { r with spent := r.spent.add nonce }) (record?_spend c nonce)
        (record?_spend c nonce)⟩

omit [Arith α] in
theorem Omits.lookup_eq {a : Arc} (h : g'.Omits a g) (ha : g.lookup a now = none) (b : Arc) :
    g.lookup b now = g'.lookup b now := by
  by_cases hb : b = a
  · rw [hb, ha, lookup, h a, if_pos rfl]
  · rw [lookup, lookup, h b, if_neg hb]

end Graph

end WebOfTrust
