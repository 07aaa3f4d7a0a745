import Mathlib
import WebOfTrust.Proofs.Arith.Rounding
import WebOfTrust.Proofs.Reputation.Formula

/-!
# Reputation grows with trust

Two graphs may agree in the edges into a node that were not revoked, but for risks that are no less
in the second one. Then their live edges into the node go side by side, with the same weights, and
the sums over them follow each other edge by edge. So the reputation of the node is no less in the
second graph, also where operations round as long as they are monotone, and it is greater in exact
arithmetic if the risk on a live edge is.

* `Edge.RaisedTo`, `Graph.RaisedInto`: risks that are no less, all else being equal;
  `Graph.RaisedInto.add`: an edge put into both graphs;
* `Graph.RaisedInto.incoming_eq_map`, `Graph.RaisedInto.forall₂_incoming`: live edges side by side;
* `Tally.Below`: a tally that is no greater; `Tally.Below.add`, `Tally.Below.foldl`: edge by edge;
* `Graph.RaisedInto.tally_below`, `Graph.RaisedInto.weightedRisk_lt`: the tallies of the live edges;
* `Graph.RaisedInto.score_le`, `Graph.RaisedInto.score_lt`: the scores;
* **`Graph.reputation_mono`**: both in one statement.
-/

namespace WebOfTrust

variable {α : Type} [Arith α]

/-! ## Raised risks -/

/-- The second edge has the fields of the first, and a risk that is no less. -/
structure Edge.RaisedTo (e e' : Edge α) : Prop where
  same : e' = { e with risk := e'.risk }
  risk_le : e.risk ≤ e'.risk

namespace Edge.RaisedTo

variable {e e' : Edge α} {now : Instant}

theorem arc_eq (h : e.RaisedTo e') : e'.arc = e.arc := by
  rw [h.same]
  rfl

theorem isExpired_eq (h : e.RaisedTo e') : e'.isExpired now = e.isExpired now := by
  rw [h.same]
  rfl

theorem weight_eq (h : e.RaisedTo e') :
    e'.levelWeight * e'.recency now = e.levelWeight * e.recency now := by
  rw [h.same]
  rfl

end Edge.RaisedTo

namespace Graph

variable {g g' : Graph α} {v : NodeId} {now : Instant} {e e' : Edge α}

/-- The edge of a pair, if it was not revoked. -/
def unrevoked? {α : Type} (g : Graph α) (a : Arc) : Option (Edge α) :=
  match g.record? a with
  | some r => if r.isRevoked then none else some r.edge
  | none => none

omit [Arith α] in
theorem lookup_eq_filter (g : Graph α) (a : Arc) (now : Instant) :
    g.lookup a now = (g.unrevoked? a).filter fun e => !e.isExpired now := by
  unfold lookup unrevoked?
  cases g.record? a with
  | none => rfl
  | some r => cases hrevoked : r.isRevoked <;> simp [Record.isLive, hrevoked, Option.filter]

omit [Arith α] in
theorem unrevoked?_put (e : Edge α) (a : Arc) :
    (g.put e).unrevoked? a = if a = e.arc then some e else g.unrevoked? a := by
  unfold unrevoked?
  rw [record?_put]
  split_ifs <;> rfl

/-- The edges into a node that were not revoked are those of the first graph, with risks that are no
less. -/
def RaisedInto (g g' : Graph α) (v : NodeId) : Prop :=
  ∀ u, Option.Rel Edge.RaisedTo (g.unrevoked? ⟨u, v⟩) (g'.unrevoked? ⟨u, v⟩)

namespace RaisedInto

theorem refl [MonotoneArith α] (g : Graph α) (v : NodeId) : g.RaisedInto g v := by
  intro u
  cases g.unrevoked? ⟨u, v⟩ with
  | none => exact .none
  | some e => exact .some ⟨rfl, Std.le_refl _⟩

theorem add (h : g.RaisedInto g' v) (hraised : e.RaisedTo e') (he : e.fault? = none)
    (he' : e'.fault? = none) : (g.add e).2.RaisedInto (g'.add e').2 v := by
  intro u
  have hadd : (g.add e).2 = g.put e := by rw [add_snd, he]; rfl
  have hadd' : (g'.add e').2 = g'.put e' := by rw [add_snd, he']; rfl
  rw [hadd, hadd', unrevoked?_put, unrevoked?_put, hraised.arc_eq]
  split_ifs
  · exact .some hraised
  · exact h u

theorem lookup (h : g.RaisedInto g' v) (u : NodeId) (now : Instant) :
    Option.Rel Edge.RaisedTo (g.lookup ⟨u, v⟩ now) (g'.lookup ⟨u, v⟩ now) := by
  have hu := h u
  rw [lookup_eq_filter, lookup_eq_filter]
  generalize g.unrevoked? ⟨u, v⟩ = x, g'.unrevoked? ⟨u, v⟩ = x' at hu ⊢
  cases hu with
  | none => exact .none
  | @some e e' hraised =>
    simp only [Option.filter, hraised.isExpired_eq]
    split_ifs
    · exact .some hraised
    · exact .none

end RaisedInto

/-! ## Live edges side by side -/

/-- The live edge of the same pair. -/
def counterpart {α : Type} (g : Graph α) (now : Instant) (e : Edge α) : Edge α :=
  (g.lookup e.arc now).getD e

namespace RaisedInto

theorem counterpart_of_mem (h : g.RaisedInto g' v) (hg' : g'.Built) (he : e' ∈ g'.incoming v now) :
    g.lookup e'.arc now = some (g.counterpart now e') ∧ (g.counterpart now e').RaisedTo e' := by
  obtain ⟨rfl, hlive⟩ := hg'.mem_incoming_iff.mp he
  have hrel := h.lookup e'.source now
  rw [← Edge.arc, hlive] at hrel
  unfold counterpart
  generalize g.lookup e'.arc now = x at hrel ⊢
  cases hrel with
  | some hraised => exact ⟨rfl, hraised⟩

theorem exists_counterpart (h : g.RaisedInto g' v) (hg : g.Built) (he : e ∈ g.incoming v now) :
    ∃ e', g'.lookup e.arc now = some e' ∧ e.RaisedTo e' := by
  obtain ⟨rfl, hlive⟩ := hg.mem_incoming_iff.mp he
  have hrel := h.lookup e.source now
  rw [← Edge.arc, hlive] at hrel
  generalize g'.lookup e.arc now = x at hrel ⊢
  cases hrel with
  | some hraised => exact ⟨_, rfl, hraised⟩

/-- **The live edges into the node go side by side.** -/
theorem incoming_eq_map (h : g.RaisedInto g' v) (hg : g.Built) (hg' : g'.Built) (now : Instant) :
    g.incoming v now = (g'.incoming v now).map (g.counterpart now) := by
  have hsource (e' : Edge α) (he' : e' ∈ g'.incoming v now) :
      (g.counterpart now e').source = e'.source :=
    congrArg Arc.source (hg.arc_of_lookup (h.counterpart_of_mem hg' he').1)
  refine eq_of_pairwise_rank (f := fun e => e.source.toNat) (hg.pairwise_incoming v now) ?_ ?_
  · refine List.pairwise_map.mpr ?_
    refine (hg'.pairwise_incoming v now).imp_of_mem fun {x y} hx hy hlt => ?_
    rw [hsource x hx, hsource y hy]
    exact hlt
  · intro e
    rw [List.mem_map]
    constructor
    · intro he
      obtain ⟨rfl, hlive⟩ := hg.mem_incoming_iff.mp he
      obtain ⟨e', hlive', hraised⟩ := h.exists_counterpart hg he
      refine ⟨e', hg'.mem_incoming_of_lookup hlive', ?_⟩
      rw [counterpart, hraised.arc_eq, hlive]
      rfl
    · rintro ⟨e', he', rfl⟩
      obtain ⟨rfl, -⟩ := hg'.mem_incoming_iff.mp he'
      exact hg.mem_incoming_of_lookup (h.counterpart_of_mem hg' he').1

theorem forall₂_incoming (h : g.RaisedInto g' v) (hg : g.Built) (hg' : g'.Built) (now : Instant) :
    List.Forall₂ Edge.RaisedTo (g.incoming v now) (g'.incoming v now) := by
  rw [h.incoming_eq_map hg hg' now, List.forall₂_map_left_iff, List.forall₂_same]
  exact fun e' he' => (h.counterpart_of_mem hg' he').2

end RaisedInto

end Graph

/-! ## Tallies -/

namespace Tally

/-- The second tally is of as many edges, with the same weight, and its weighted risk is no less. -/
structure Below (t t' : Tally α) : Prop where
  edges : t'.edges = t.edges
  weight : t'.weight = t.weight
  weightedRisk : t.weightedRisk ≤ t'.weightedRisk

variable [MonotoneArith α] {t t' : Tally α} {now : Instant}

theorem Below.add (h : t.Below t') {e e' : Edge α} (hraised : e.RaisedTo e') :
    (t.add now e).Below (t'.add now e') where
  edges := congrArg (· + 1) h.edges
  weight := by
    show t'.weight + e'.levelWeight * e'.recency now = t.weight + e.levelWeight * e.recency now
    rw [h.weight, hraised.weight_eq]
  weightedRisk := by
    show t.weightedRisk + e.levelWeight * e.recency now * e.risk ≤
      t'.weightedRisk + e'.levelWeight * e'.recency now * e'.risk
    rw [hraised.weight_eq]
    exact MonotoneArith.add_le_add h.weightedRisk
      (MonotoneArith.mul_le_mul_left (e.weight_nonneg now) hraised.risk_le)

theorem Below.foldl (h : t.Below t') {l l' : List (Edge α)}
    (hraised : List.Forall₂ Edge.RaisedTo l l') :
    (l.foldl (Tally.add now) t).Below (l'.foldl (Tally.add now) t') := by
  induction hraised generalizing t t' with
  | nil => exact h
  | cons hfirst _ ih => exact ih (h.add hfirst)

theorem weight_foldl_nonneg (h : 0 ≤ t.weight) (l : List (Edge α)) :
    0 ≤ (l.foldl (Tally.add now) t).weight := by
  induction l generalizing t with
  | nil => exact h
  | cons e rest ih => exact ih (Arith.add_nonneg h (e.weight_nonneg now))

end Tally

/-! ## Scores -/

namespace Graph

section Sides

variable [MonotoneArith α] {g g' : Graph α} {v : NodeId} {settings : ReputationSettings α}

theorem RaisedInto.tally_below (h : g.RaisedInto g' v) (hg : g.Built) (hg' : g'.Built)
    (now : Instant) : (g.tally v now).Below (g'.tally v now) := by
  have hzero : Tally.Below (Tally.zero : Tally α) Tally.zero := ⟨rfl, rfl, Std.le_refl _⟩
  exact hzero.foldl (h.forall₂_incoming hg hg' now)

theorem priorWeight_add_pos (g : Graph α) (v : NodeId) (now : Instant)
    (hprior : 0 < settings.priorWeight) : 0 < settings.priorWeight + (g.tally v now).weight :=
  Arith.add_pos_of_nonneg hprior (Tally.weight_foldl_nonneg (Std.le_refl _) _)

/-- **The score of a node is no less where risks are no less.** -/
theorem RaisedInto.score_le (h : g.RaisedInto g' v) (hg : g.Built) (hg' : g'.Built)
    (hprior : 0 < settings.priorWeight) (now : Instant) :
    (g.reputation settings v now).score ≤ (g'.reputation settings v now).score := by
  have hbelow := h.tally_below hg hg' now
  have hpos := g.priorWeight_add_pos v now hprior
  unfold reputation
  dsimp only
  rw [hbelow.edges, hbelow.weight]
  split_ifs
  · exact Std.le_refl _
  · apply Arith.clampUnit_mono
    apply MonotoneArith.div_le_div_right (MonotoneArith.natCast_pos 2 (by decide))
    apply MonotoneArith.add_le_add (Std.le_refl _)
    exact MonotoneArith.div_le_div_right hpos hbelow.weightedRisk

end Sides

section Exact

variable {g g' : Graph ℚ} {v : NodeId} {settings : ReputationSettings ℚ} {now : Instant}

/-- The risk on some live edge into a node is greater in the second graph. -/
def RisesInto (g g' : Graph ℚ) (v : NodeId) (now : Instant) : Prop :=
  ∃ u e e', g.lookup ⟨u, v⟩ now = some e ∧ g'.lookup ⟨u, v⟩ now = some e' ∧ e.risk < e'.risk

theorem Built.weight_pos_of_lookup (hg : g.Built) {a : Arc} {e : Edge ℚ}
    (he : g.lookup a now = some e) : 0 < e.levelWeight * e.recency now :=
  Edge.weight_pos (Edge.timestamp_lt_expiration (hg.fault?_of_lookup he)) (isExpired_of_lookup he)

theorem RaisedInto.weightedRisk_lt (h : g.RaisedInto g' v) (hg : g.Built) (hg' : g'.Built)
    (hrises : g.RisesInto g' v now) :
    (g.tally v now).weightedRisk < (g'.tally v now).weightedRisk := by
  obtain ⟨u, e, e', he, he', hlt⟩ := hrises
  rw [tally, tally, Tally.foldl_add, Tally.foldl_add, h.incoming_eq_map hg hg' now, List.map_map]
  apply List.sum_lt_sum
  · intro x hx
    have hraised := (h.counterpart_of_mem hg' hx).2
    show (g.counterpart now x).levelWeight * (g.counterpart now x).recency now *
      (g.counterpart now x).risk ≤ x.levelWeight * x.recency now * x.risk
    rw [hraised.weight_eq]
    exact mul_le_mul_of_nonneg_left hraised.risk_le (Edge.weight_nonneg _ now)
  · have harc := hg'.arc_of_lookup he'
    have hmem : e' ∈ g'.incoming v now := hg'.mem_incoming_of_lookup he'
    have hcounterpart : g.counterpart now e' = e := by rw [counterpart, harc, he]; rfl
    have hraised : e.RaisedTo e' := hcounterpart ▸ (h.counterpart_of_mem hg' hmem).2
    refine ⟨e', hmem, ?_⟩
    rw [Function.comp_apply, hcounterpart, hraised.weight_eq]
    exact mul_lt_mul_of_pos_left hlt (hg.weight_pos_of_lookup he)

/-- **In exact arithmetic the score is greater where the risk on a live edge is.** -/
theorem RaisedInto.score_lt (h : g.RaisedInto g' v) (hg : g.Built) (hg' : g'.Built)
    (hprior : 0 < settings.priorWeight) (hrises : g.RisesInto g' v now) :
    (g.reputation settings v now).score < (g'.reputation settings v now).score := by
  have hpos := g.priorWeight_add_pos v now hprior
  have hlt := h.weightedRisk_lt hg hg' hrises
  rw [hg.score_eq_tally hprior, hg'.score_eq_tally hprior, (h.tally_below hg hg' now).weight]
  gcongr

end Exact

/-- **Reputation grows with trust**, in every monotone arithmetic, and strictly in the exact one. -/
theorem reputation_mono (v : NodeId) (now : Instant) :
    (∀ {α : Type} [Arith α] [MonotoneArith α] {g g' : Graph α} {settings : ReputationSettings α},
      g.Built → g'.Built → 0 < settings.priorWeight → g.RaisedInto g' v →
        (g.reputation settings v now).score ≤ (g'.reputation settings v now).score) ∧
    ∀ {g g' : Graph ℚ} {settings : ReputationSettings ℚ},
      g.Built → g'.Built → 0 < settings.priorWeight → g.RaisedInto g' v → g.RisesInto g' v now →
        (g.reputation settings v now).score < (g'.reputation settings v now).score :=
  ⟨fun hg hg' hprior h => h.score_le hg hg' hprior now,
    fun hg hg' hprior h hrises => h.score_lt hg hg' hprior hrises⟩

section Endorsement

/-- Distrust that lasts, trust that has expired at fifty, and distrust that was revoked. -/
def divided (α : Type) [Arith α] : Graph α :=
  ((Graph.empty.addAll
    [⟨3, 1, -1, 0, 0, 1, 200⟩, ⟨4, 1, 1, 0, 0, 3, 10⟩, ⟨5, 1, -1, 0, 0, 3, 100⟩]).revoke
      ⟨5, 1⟩ 7).2

/-- An endorsement of some strength. -/
def endorsement {α : Type} (risk : α) : Edge α := ⟨2, 1, risk, 0, 0, 3, 100⟩

/-- The divided node, endorsed. -/
def endorsed (risk : α) : Graph α := ((divided α).add (endorsement risk)).2

theorem endorsed_built (risk : α) : (endorsed risk).Built :=
  ((Built.empty.addAll _).revoke _ _).add _

theorem endorsed_raisedInto [MonotoneArith α] {x y : α} (hle : x ≤ y)
    (hx : (endorsement x).fault? = none) (hy : (endorsement y).fault? = none) :
    (endorsed x).RaisedInto (endorsed y) 1 :=
  (RaisedInto.refl (divided α) 1).add ⟨rfl, hle⟩ hx hy

/-- Arithmetic that rounds down to tenths. -/
abbrev Tenths : Type := Rounded (Rounding.down 10 (by decide))

/-- A stronger endorsement makes the score greater, and no less in tenths. -/
theorem reputation_mono_endorsement :
    let settings : ReputationSettings ℚ := Config.default.reputation
    let roughly : ReputationSettings Tenths := Config.default.reputation
    let weak : Tenths := Arith.ratio 1 2
    let strong : Tenths := Arith.ratio 3 5
    ((endorsed weak).Built ∧ (endorsed strong).Built ∧ 0 < roughly.priorWeight ∧
      (endorsed weak).RaisedInto (endorsed strong) 1 ∧
      ((endorsed weak).reputation roughly 1 50).score ≤
        ((endorsed strong).reputation roughly 1 50).score) ∧
    (endorsed (1 / 2 : ℚ)).Built ∧ (endorsed (3 / 5 : ℚ)).Built ∧ 0 < settings.priorWeight ∧
      (endorsed (1 / 2 : ℚ)).RaisedInto (endorsed (3 / 5)) 1 ∧
      (endorsed (1 / 2 : ℚ)).RisesInto (endorsed (3 / 5)) 1 50 ∧
      ((endorsed (1 / 2 : ℚ)).reputation settings 1 50).score <
        ((endorsed (3 / 5)).reputation settings 1 50).score := by
  intro settings roughly weak strong
  have hroughly : 0 < roughly.priorWeight := by decide +kernel
  have hrough : (endorsed weak).RaisedInto (endorsed strong) 1 :=
    endorsed_raisedInto (by decide +kernel) (by decide +kernel) (by decide +kernel)
  have hsettings : 0 < settings.priorWeight := by decide +kernel
  have hexact : (endorsed (1 / 2 : ℚ)).RaisedInto (endorsed (3 / 5)) 1 :=
    endorsed_raisedInto (by norm_num) (by decide +kernel) (by decide +kernel)
  have hrises : (endorsed (1 / 2 : ℚ)).RisesInto (endorsed (3 / 5)) 1 50 :=
    ⟨2, endorsement (1 / 2), endorsement (3 / 5), by decide +kernel, by decide +kernel,
      by decide +kernel⟩
  exact ⟨⟨endorsed_built _, endorsed_built _, hroughly, hrough,
      (reputation_mono 1 50).1 (endorsed_built _) (endorsed_built _) hroughly hrough⟩,
    endorsed_built _, endorsed_built _, hsettings, hexact, hrises,
    (reputation_mono 1 50).2 (endorsed_built _) (endorsed_built _) hsettings hexact hrises⟩

end Endorsement

end Graph

end WebOfTrust
