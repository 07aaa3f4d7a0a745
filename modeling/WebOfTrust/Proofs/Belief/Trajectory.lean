import Mathlib
import WebOfTrust.Proofs.Arith.Ordered
import WebOfTrust.Proofs.Belief.Rounds

/-!
# The course of beliefs

The beliefs in all nodes, round by round, as a sequence of its own. Beliefs are renewed all at once:
the new belief in a node is a mean of what the last beliefs say of it.

* `Trajectory.change`, `Trajectory.largestChange`: what a round changes;
* `Trajectory.Moves`, `Trajectory.Reverses`: changes above a tolerance, and such as turn round;
* `Graph.update`: all beliefs renewed at once; `Graph.trajectory`: the beliefs after each round;
* `Beliefs.Tabulates`: a table has such beliefs;
* **`Propagation.mem_moves_iff_still`**, `Propagation.tabulates_round`: a round makes the moves of
  an update.
-/

namespace WebOfTrust

variable {α : Type} [Arith α]

/-! ## Trajectories -/

/-- The beliefs after each round, from those before the first one on. -/
abbrev Trajectory (α : Type) : Type := ℕ → NodeId → α

namespace Trajectory

variable (x : Trajectory α) (tolerance : α) (nodes : KeySet NodeId) (k : ℕ) (v : NodeId)

/-- What a round adds to the belief in a node. -/
def change : α := x k v - x (k - 1) v

/-- The largest change of a round among some nodes. -/
def largestChange : α := Arith.largest (nodes.keys.map fun v => Arith.magnitude (x.change k v))

/-- A round moves the belief in a node by more than the tolerance. -/
def Moves : Prop := tolerance < Arith.magnitude (x.change k v)

instance : Decidable (x.Moves tolerance k v) := by
  unfold Moves
  infer_instance

/-- Round j is the last of the rounds up to round k that move the belief in a node. -/
def LastMoves (j : ℕ) : Prop :=
  0 < j ∧ j ≤ k ∧ x.Moves tolerance j v ∧ ∀ i, j < i → i ≤ k → ¬ x.Moves tolerance i v

/-- A round moves the belief in a node the other way than the last round before it that has moved
this belief. -/
def Reverses : Prop :=
  x.Moves tolerance k v ∧ ∃ j, x.LastMoves tolerance (k - 1) v j ∧
    (x.change j v < 0 ∧ 0 < x.change k v ∨ 0 < x.change j v ∧ x.change k v < 0)

end Trajectory

/-- What an edge says of its target: what its risk says if its source is trusted, and the opposite
if it is distrusted. -/
def Edge.opinion (x : NodeId → α) (e : Edge α) : α :=
  let truth := (1 + e.risk) / (2 : ℕ)
  x e.source * truth + (1 - x e.source) * (1 - truth)

namespace Graph

variable (g : Graph α) (source : NodeId) (nodes : KeySet NodeId) (now : Instant)

/-- The live edges into a node from among some nodes. -/
def voices (v : NodeId) : List (Edge α) := (g.incoming v now).filter (nodes.contains ·.source)

/-- The weight of these edges. -/
def voiceWeight (v : NodeId) : α := ((g.voices nodes now v).map Edge.levelWeight).foldl (· + ·) 0

/-- No round changes the belief in a node: it is the source, or not among the nodes, or nothing of
weight is said of it. -/
def Still (v : NodeId) : Prop :=
  v = source ∨ nodes.contains v = false ∨ g.voiceWeight nodes now v ≤ 0

instance (v : NodeId) : Decidable (g.Still source nodes now v) := by
  unfold Still
  infer_instance

/-- All beliefs renewed at once: the new belief in a node is the mean, weighted by level, of what
the live edges say of it under the last beliefs. -/
def update (x : NodeId → α) (v : NodeId) : α :=
  if g.Still source nodes now v then x v
  else
    ((g.voices nodes now v).map fun e => e.levelWeight * e.opinion x).foldl (· + ·) 0 /
      g.voiceWeight nodes now v

/-- The beliefs after each round, from one for the source and one half for the others on. -/
def trajectory : Trajectory α
  | 0 => fun v => if v = source then 1 else Arith.half
  | k + 1 => g.update source nodes now (trajectory k)

end Graph

/-- A table has the beliefs in some nodes. -/
def Beliefs.Tabulates (b : Beliefs α) (nodes : KeySet NodeId) (x : NodeId → α) : Prop :=
  ∀ v, b.get? v = if nodes.contains v = true then some (x v) else none

/-! ## The moves of a round -/

section Moves

variable {g : Graph α} {source : NodeId} {nodes : KeySet NodeId} {now : Instant}
  {b : Beliefs α} {x : NodeId → α} {v : NodeId}

theorem Beliefs.Tabulates.opinion_eq (hb : b.Tabulates nodes x) {e : Edge α}
    (he : nodes.contains e.source = true) : (Message.ofEdge e).opinion b = e.opinion x := by
  have hsource : b.get? (Message.ofEdge e).source = some (x e.source) := by
    rw [hb]
    exact if_pos he
  rw [Message.opinion, hsource]
  rfl

theorem Graph.mem_inboxes_iff {inbox : Inbox α} : inbox ∈ g.inboxes source nodes now ↔
    ∃ v, nodes.contains v = true ∧ v ≠ source ∧
      inbox = ⟨v, (g.voices nodes now v).map Message.ofEdge⟩ := by
  simp only [inboxes, List.mem_map, List.mem_filter, Table.mem_keys_iff, decide_eq_true_eq, voices,
    and_assoc]
  exact exists_congr fun v => and_congr_right fun _ => and_congr_right fun _ => eq_comm

theorem Graph.contains_of_not_still (h : ¬ g.Still source nodes now v) :
    nodes.contains v = true := by
  by_contra hv
  exact h (.inr (.inl (Bool.eq_false_of_not_eq_true hv)))

theorem Beliefs.Tabulates.mean?_eq (hb : b.Tabulates nodes x) (hv : nodes.contains v = true)
    (hsource : v ≠ source) :
    (⟨v, (g.voices nodes now v).map Message.ofEdge⟩ : Inbox α).mean? b =
      if g.Still source nodes now v then none else some (g.update source nodes now x v) := by
  have hopinions : ((g.voices nodes now v).map Message.ofEdge).map
      (fun m => m.weight * m.opinion b) =
        (g.voices nodes now v).map fun e => e.levelWeight * e.opinion x := by
    rw [List.map_map]
    refine List.map_congr_left fun e he => ?_
    rw [Function.comp_apply, hb.opinion_eq (List.mem_filter.mp he).2]
    rfl
  have hweights : ((g.voices nodes now v).map Message.ofEdge).map (·.weight) =
      (g.voices nodes now v).map Edge.levelWeight := List.map_map ..
  have hstill : g.Still source nodes now v ↔ g.voiceWeight nodes now v ≤ 0 := by
    simp [Graph.Still, hsource, hv]
  rw [Inbox.mean?_eq_foldl]
  dsimp only
  rw [hopinions, hweights]
  by_cases h : g.Still source nodes now v
  · rw [if_pos h]
    exact if_pos (hstill.mp h)
  · rw [if_neg h, Graph.update, if_neg h]
    exact if_neg fun hw => h (hstill.mpr hw)

namespace Propagation

variable {p : Propagation α} {tolerance : α} {late : Bool}

/-- **The moves of a round** go to the beliefs that an update gives. -/
theorem mem_moves_iff_still (hb : p.beliefs.Tabulates nodes x) {m : Move α} :
    m ∈ moves (g.inboxes source nodes now) p ↔ ∃ v, ¬ g.Still source nodes now v ∧
      m = ⟨v, g.update source nodes now x v, g.update source nodes now x v - x v⟩ := by
  have hmove : ∀ v, nodes.contains v = true → v ≠ source →
      (⟨v, (g.voices nodes now v).map Message.ofEdge⟩ : Inbox α).move? p.beliefs =
        if g.Still source nodes now v then none
        else some ⟨v, g.update source nodes now x v, g.update source nodes now x v - x v⟩ := by
    intro v hv hsource
    rw [Inbox.move?, hb.mean?_eq hv hsource, hb v, if_pos hv]
    split_ifs <;> rfl
  rw [mem_moves_iff]
  constructor
  · rintro ⟨inbox, hi, hm⟩
    obtain ⟨v, hv, hsource, rfl⟩ := Graph.mem_inboxes_iff.mp hi
    rw [hmove v hv hsource] at hm
    split_ifs at hm with hstill
    exact ⟨v, hstill, (Option.some.inj hm).symm⟩
  · rintro ⟨v, hstill, rfl⟩
    have hv := Graph.contains_of_not_still hstill
    have hsource : v ≠ source := fun h => hstill (.inl h)
    exact ⟨_, Graph.mem_inboxes_iff.mpr ⟨v, hv, hsource, rfl⟩,
      (hmove v hv hsource).trans (if_neg hstill)⟩

theorem ascending_moves (g : Graph α) (source : NodeId) (nodes : KeySet NodeId) (now : Instant)
    (p : Propagation α) :
    (moves (g.inboxes source nodes now) p).Pairwise (·.node < ·.node) := by
  have hkeys : nodes.keys.Pairwise (· < ·) :=
    List.pairwise_map.mpr (nodes.sorted.imp UInt32.lt_iff_toNat_lt.mpr)
  have hinboxes : (g.inboxes source nodes now).Pairwise (·.node < ·.node) :=
    List.pairwise_map.mpr (hkeys.filter _)
  refine List.Pairwise.filterMap _ (fun i j hlt m hm m' hm' => ?_) hinboxes
  rw [Inbox.move?_node hm, Inbox.move?_node hm']
  exact hlt

theorem tabulates_round (hb : p.beliefs.Tabulates nodes x) :
    (p.round tolerance late (g.inboxes source nodes now)).beliefs.Tabulates nodes
      (g.update source nodes now x) := by
  intro v
  by_cases hstill : g.Still source nodes now v
  · rw [beliefs_round, Table.get?_foldl_insert_of_ne, hb, Graph.update, if_pos hstill]
    intro m hm
    obtain ⟨u, hu, rfl⟩ := (mem_moves_iff_still hb).mp hm
    rintro rfl
    exact hu hstill
  · have hv := Graph.contains_of_not_still hstill
    have hm : (⟨v, g.update source nodes now x v, g.update source nodes now x v - x v⟩ : Move α) ∈
        moves (g.inboxes source nodes now) p := (mem_moves_iff_still hb).mpr ⟨v, hstill, rfl⟩
    have hdistinct := pairwise_moves (g.distinct_inboxes source nodes now) p
    rw [beliefs_round, if_pos hv]
    exact Table.get?_foldl_insert_of_mem hdistinct hm _

end Propagation

end Moves

end WebOfTrust
