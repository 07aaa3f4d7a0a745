import Mathlib
import WebOfTrust.Proofs.Belief.Trajectory
import WebOfTrust.Proofs.Graph.Records

/-!
# The outcome of a run

Between its rounds a run remembers which way each belief has moved last, whether one has turned
round late, and where the largest move was. What it finds in the end is nevertheless a matter of the
beliefs alone, in any ordered arithmetic.

* `Propagation.reversed_foldl_turn_iff`, `isLeast_largestMove`: what the moves of a round leave;
* `Propagation.Follows`: a state between rounds remembers what the trajectory tells, which every
  round preserves (**`Propagation.Follows.round`**);
* **`Graph.propagate_eq_trajectory`**: the outcome of a run, by the trajectory.
-/

namespace WebOfTrust

variable {α : Type} [Arith α]

/-! ## What a round remembers -/

section Turns

variable {tolerance : α} {late : Bool} {l : List (Move α)} (p : Propagation α) (m : Move α)

namespace Propagation

theorem falling_turn : (p.turn tolerance late m).falling =
    if tolerance < Arith.magnitude m.change then p.falling.insert m.node (decide (m.change < 0))
    else p.falling := by
  unfold turn
  split_ifs <;> rfl

theorem reversed_turn_iff : (p.turn tolerance late m).reversed = true ↔
    p.reversed = true ∨ late = true ∧ tolerance < Arith.magnitude m.change ∧
      p.falling.get? m.node = some (!decide (m.change < 0)) := by
  unfold turn
  split_ifs with h
  · cases p.falling.get? m.node with
    | none => simp
    | some before => simp [h, Bool.eq_not, and_comm]
  · simp [h]

theorem falling_foldl_turn_of_forall {v : NodeId}
    (h : ∀ m ∈ l, m.node = v → ¬ tolerance < Arith.magnitude m.change) :
    (l.foldl (turn tolerance late) p).falling.get? v = p.falling.get? v := by
  induction l generalizing p with
  | nil => rfl
  | cons m rest ih =>
    obtain ⟨hm, hrest⟩ := List.forall_mem_cons.mp h
    rw [List.foldl_cons, ih _ hrest, falling_turn]
    split_ifs with hmoves
    · exact Table.get?_insert_of_ne _ _ fun hv => hm hv.symm hmoves
    · rfl

theorem falling_foldl_turn_of_mem (hl : l.Pairwise (·.node ≠ ·.node)) {m : Move α} (hm : m ∈ l)
    (hmoves : tolerance < Arith.magnitude m.change) :
    (l.foldl (turn tolerance late) p).falling.get? m.node = some (decide (m.change < 0)) := by
  induction l generalizing p with
  | nil => cases hm
  | cons m' rest ih =>
    obtain ⟨hm', hrest⟩ := List.pairwise_cons.mp hl
    rw [List.foldl_cons]
    rcases List.mem_cons.mp hm with rfl | hm
    · rw [falling_foldl_turn_of_forall _ fun u hu hnode => absurd hnode.symm (hm' u hu),
        falling_turn, if_pos hmoves, Table.get?_insert_self]
    · exact ih _ hrest hm

theorem reversed_foldl_turn_iff (hl : l.Pairwise (·.node ≠ ·.node)) :
    (l.foldl (turn tolerance late) p).reversed = true ↔
      p.reversed = true ∨ late = true ∧ ∃ m ∈ l, tolerance < Arith.magnitude m.change ∧
        p.falling.get? m.node = some (!decide (m.change < 0)) := by
  induction l generalizing p with
  | nil => simp
  | cons m rest ih =>
    obtain ⟨hm, hrest⟩ := List.pairwise_cons.mp hl
    have hfalling : ∀ u ∈ rest, (p.turn tolerance late m).falling.get? u.node =
        p.falling.get? u.node := by
      intro u hu
      rw [falling_turn]
      split_ifs
      · exact Table.get?_insert_of_ne _ _ (hm u hu).symm
      · rfl
    have hlater : (∃ u ∈ rest, tolerance < Arith.magnitude u.change ∧
        (p.turn tolerance late m).falling.get? u.node = some (!decide (u.change < 0))) ↔
          ∃ u ∈ rest, tolerance < Arith.magnitude u.change ∧
            p.falling.get? u.node = some (!decide (u.change < 0)) :=
      exists_congr fun u => and_congr_right fun hu => by rw [hfalling u hu]
    rw [List.foldl_cons, ih _ hrest, hlater, reversed_turn_iff]
    simp only [List.mem_cons, exists_eq_or_imp, and_or_left, or_assoc]

end Propagation

end Turns

/-! ## The largest move -/

section Largest

theorem largestMove_fst (still : NodeId) (l : List (Move α)) :
    (largestMove still l).1 = Arith.largest (l.map fun m => Arith.magnitude m.change) := by
  induction l using List.reverseRecOn with
  | nil => rfl
  | append_singleton l m ih =>
    rw [largestMove_concat, List.map_append, List.map_singleton, Arith.largest_concat, ← ih]
    split_ifs <;> rfl

variable [OrderedArith α]

theorem isLeast_largestMove {still : NodeId} {l : List (Move α)}
    (hl : l.Pairwise (·.node < ·.node)) (hpos : 0 < (largestMove still l).1) :
    IsLeast {v | ∃ m ∈ l, m.node = v ∧ Arith.magnitude m.change = (largestMove still l).1}
      (largestMove still l).2 := by
  induction l using List.reverseRecOn with
  | nil => exact absurd hpos Std.lt_irrefl
  | append_singleton l m ih =>
    obtain ⟨hfront, -, hlast⟩ := List.pairwise_append.mp hl
    have hle : ∀ u ∈ l, Arith.magnitude u.change ≤ (largestMove still l).1 := by
      intro u hu
      rw [largestMove_fst]
      exact Arith.le_largest (List.mem_map_of_mem hu)
    rw [largestMove_concat] at hpos ⊢
    split_ifs at hpos ⊢ with hm
    · -- Only the last move is as large as this.
      refine ⟨⟨m, by simp, rfl, rfl⟩, ?_⟩
      rintro v ⟨u, hu, rfl, heq⟩
      rcases List.mem_append.mp hu with hu | hu
      · have := hle u hu
        grind
      · rw [List.mem_singleton.mp hu]
        exact UInt32.le_refl _
    · obtain ⟨⟨w, hw, hnode, heq⟩, hleast⟩ := ih hfront hpos
      refine ⟨⟨w, List.mem_append_left _ hw, hnode, heq⟩, ?_⟩
      rintro v ⟨u, hu, rfl, heq'⟩
      rcases List.mem_append.mp hu with hu | hu
      · exact hleast ⟨u, hu, rfl, heq'⟩
      · rw [← hnode, List.mem_singleton.mp hu]
        exact UInt32.le_of_lt (hlast w hw m (List.mem_singleton.mpr rfl))

end Largest

/-! ## A state and the trajectory -/

/-- A state between rounds remembers what a trajectory tells. -/
structure Propagation.Follows (x : Trajectory α) (nodes : KeySet NodeId) (bound : ℕ)
    (tolerance : α) (n : ℕ) (p : Propagation α) : Prop where
  tabulates : p.beliefs.Tabulates nodes (x n)
  falling : ∀ v d, p.falling.get? v = some d ↔
    ∃ j, x.LastMoves tolerance n v j ∧ d = decide (x.change j v < 0)
  reversed : p.reversed = true ↔ ∃ k v, bound / 2 < k ∧ k ≤ n ∧ x.Reverses tolerance k v
  residual : 0 < n → p.residual = x.largestChange nodes n
  worst : 0 < n → 0 < p.residual →
    IsLeast {v | nodes.contains v = true ∧ Arith.magnitude (x.change n v) = p.residual} p.worst

namespace Trajectory

variable {x : Trajectory α} {tolerance : α} {n j : ℕ} {v : NodeId}

theorem lastMoves_succ_of_moves (h : x.Moves tolerance (n + 1) v) :
    x.LastMoves tolerance (n + 1) v j ↔ j = n + 1 := by
  constructor
  · rintro ⟨-, hj, -, hlast⟩
    by_contra hne
    exact hlast (n + 1) (by omega) (Nat.le_refl _) h
  · rintro rfl
    exact ⟨Nat.succ_pos n, Nat.le_refl _, h, fun i hi hin => by omega⟩

theorem lastMoves_succ_of_not_moves (h : ¬ x.Moves tolerance (n + 1) v) :
    x.LastMoves tolerance (n + 1) v j ↔ x.LastMoves tolerance n v j := by
  constructor
  · rintro ⟨hpos, hj, hmoves, hlast⟩
    rcases Nat.lt_or_eq_of_le hj with hlt | rfl
    · exact ⟨hpos, by omega, hmoves, fun i hi hin => hlast i hi (by omega)⟩
    · exact absurd hmoves h
  · rintro ⟨hpos, hj, hmoves, hlast⟩
    refine ⟨hpos, by omega, hmoves, fun i hi hin => ?_⟩
    rcases Nat.lt_or_eq_of_le hin with hlt | rfl
    · exact hlast i hi (by omega)
    · exact h

theorem reverses_succ_iff [OrderedArith α] (htolerance : 0 < tolerance) :
    x.Reverses tolerance (n + 1) v ↔ x.Moves tolerance (n + 1) v ∧
      ∃ j, x.LastMoves tolerance n v j ∧
        (!decide (x.change (n + 1) v < 0)) = decide (x.change j v < 0) := by
  refine and_congr_right fun hmoves => exists_congr fun j => and_congr_right fun hlast => ?_
  have hsign := Arith.pos_or_neg_of_lt_magnitude htolerance hmoves
  have hsign' := Arith.pos_or_neg_of_lt_magnitude htolerance hlast.2.2.1
  rcases hsign with ⟨h, h'⟩ | ⟨h, h'⟩ <;> rcases hsign' with ⟨h₁, h₁'⟩ | ⟨h₁, h₁'⟩ <;> simp [*]

end Trajectory

section Follows

variable [OrderedArith α] {g : Graph α} {source : NodeId} {nodes : KeySet NodeId} {now : Instant}
  {bound n : ℕ} {tolerance : α} {p : Propagation α} {v : NodeId}

theorem Graph.change_of_still (h : g.Still source nodes now v) :
    (g.trajectory source nodes now).change (n + 1) v = 0 := by
  show g.update source nodes now _ v - g.trajectory source nodes now n v = 0
  rw [Graph.update, if_pos h]
  exact OrderedArith.sub_self _

theorem Graph.not_still_of_moves (htolerance : 0 < tolerance)
    (h : (g.trajectory source nodes now).Moves tolerance (n + 1) v) :
    ¬ g.Still source nodes now v := by
  intro hstill
  rw [Trajectory.Moves, change_of_still hstill, Arith.magnitude_zero] at h
  exact Std.lt_irrefl (Std.lt_trans h htolerance)

namespace Propagation

omit [OrderedArith α] in
theorem follows_start :
    Follows (g.trajectory source nodes now) nodes bound tolerance 0 (start source nodes) where
  tabulates := get?_initialBeliefs source nodes
  falling v d := by
    constructor
    · intro h
      cases h
    · rintro ⟨j, ⟨hpos, hj, -⟩, -⟩
      omega
  reversed := by
    constructor
    · intro h
      cases h
    · rintro ⟨k, v, hk, hk', -⟩
      omega
  residual h := absurd h (Nat.lt_irrefl 0)
  worst h := absurd h (Nat.lt_irrefl 0)

omit [OrderedArith α] in
theorem Follows.mem_moves_iff
    (hp : Follows (g.trajectory source nodes now) nodes bound tolerance n p) {m : Move α} :
    m ∈ moves (g.inboxes source nodes now) p ↔ ∃ v, ¬ g.Still source nodes now v ∧
      m = ⟨v, g.trajectory source nodes now (n + 1) v,
        (g.trajectory source nodes now).change (n + 1) v⟩ :=
  mem_moves_iff_still hp.tabulates

theorem Follows.residual_round
    (hp : Follows (g.trajectory source nodes now) nodes bound tolerance n p) {late : Bool} :
    (p.round tolerance late (g.inboxes source nodes now)).residual =
      (g.trajectory source nodes now).largestChange nodes (n + 1) := by
  refine (largestMove_fst p.worst _).trans (Arith.largest_congr ?_ ?_)
  · intro y hy
    obtain ⟨m, hm, rfl⟩ := List.mem_map.mp hy
    obtain ⟨v, hstill, rfl⟩ := hp.mem_moves_iff.mp hm
    have hv := Table.mem_keys_iff.mpr (Graph.contains_of_not_still hstill)
    exact .inr (List.mem_map.mpr ⟨v, hv, rfl⟩)
  · intro y hy
    obtain ⟨v, hv, rfl⟩ := List.mem_map.mp hy
    by_cases hstill : g.Still source nodes now v
    · left
      rw [Graph.change_of_still hstill, Arith.magnitude_zero]
    · exact .inr (List.mem_map.mpr ⟨_, hp.mem_moves_iff.mpr ⟨v, hstill, rfl⟩, rfl⟩)

theorem Follows.worst_round
    (hp : Follows (g.trajectory source nodes now) nodes bound tolerance n p) {late : Bool}
    (hpos : 0 < (p.round tolerance late (g.inboxes source nodes now)).residual) :
    IsLeast {v | nodes.contains v = true ∧
        Arith.magnitude ((g.trajectory source nodes now).change (n + 1) v) =
          (p.round tolerance late (g.inboxes source nodes now)).residual}
      (p.round tolerance late (g.inboxes source nodes now)).worst := by
  have hleast := isLeast_largestMove (ascending_moves g source nodes now p) hpos
  obtain ⟨⟨m, hm, hnode, heq⟩, hlower⟩ := hleast
  obtain ⟨v, hstill, rfl⟩ := hp.mem_moves_iff.mp hm
  subst hnode
  refine ⟨⟨Graph.contains_of_not_still hstill, heq⟩, ?_⟩
  rintro u ⟨-, hu⟩
  -- A node that makes the largest move is not still.
  have hmoves : ¬ g.Still source nodes now u := by
    intro hstill
    rw [Graph.change_of_still hstill, Arith.magnitude_zero] at hu
    rw [← hu] at hpos
    exact Std.lt_irrefl hpos
  exact hlower ⟨_, hp.mem_moves_iff.mpr ⟨u, hmoves, rfl⟩, rfl, hu⟩

theorem Follows.falling_round (htolerance : 0 < tolerance)
    (hp : Follows (g.trajectory source nodes now) nodes bound tolerance n p) {late : Bool}
    (v : NodeId) (d : Bool) :
    (p.round tolerance late (g.inboxes source nodes now)).falling.get? v = some d ↔
      ∃ j, (g.trajectory source nodes now).LastMoves tolerance (n + 1) v j ∧
        d = decide ((g.trajectory source nodes now).change j v < 0) := by
  by_cases hmoves : (g.trajectory source nodes now).Moves tolerance (n + 1) v
  · have hm := hp.mem_moves_iff.mpr ⟨v, Graph.not_still_of_moves htolerance hmoves, rfl⟩
    have hfalling : (p.round tolerance late (g.inboxes source nodes now)).falling.get? v =
        some (decide ((g.trajectory source nodes now).change (n + 1) v < 0)) :=
      falling_foldl_turn_of_mem p (pairwise_moves (g.distinct_inboxes source nodes now) p) hm hmoves
    simp only [hfalling, Trajectory.lastMoves_succ_of_moves hmoves, exists_eq_left, Option.some_inj]
    exact eq_comm
  · have hfalling : (p.round tolerance late (g.inboxes source nodes now)).falling.get? v =
        p.falling.get? v := by
      refine falling_foldl_turn_of_forall p fun m hm hv => ?_
      obtain ⟨u, -, rfl⟩ := hp.mem_moves_iff.mp hm
      obtain rfl : u = v := hv
      exact hmoves
    simp only [hfalling, hp.falling, Trajectory.lastMoves_succ_of_not_moves hmoves]

theorem Follows.reversed_round (htolerance : 0 < tolerance)
    (hp : Follows (g.trajectory source nodes now) nodes bound tolerance n p) :
    (p.round tolerance (bound / 2 < n + 1) (g.inboxes source nodes now)).reversed = true ↔
      ∃ k v, bound / 2 < k ∧ k ≤ n + 1 ∧
        (g.trajectory source nodes now).Reverses tolerance k v := by
  refine (reversed_foldl_turn_iff p
    (pairwise_moves (g.distinct_inboxes source nodes now) p)).trans ?_
  rw [hp.reversed, decide_eq_true_eq]
  constructor
  · rintro (⟨k, v, hk, hkn, hreverses⟩ | ⟨hlate, m, hm, hmoves, hfalling⟩)
    · exact ⟨k, v, hk, by omega, hreverses⟩
    · obtain ⟨v, -, rfl⟩ := hp.mem_moves_iff.mp hm
      exact ⟨n + 1, v, hlate, Nat.le_refl _, (Trajectory.reverses_succ_iff htolerance).mpr
        ⟨hmoves, (hp.falling v _).mp hfalling⟩⟩
  · rintro ⟨k, v, hk, hkn, hreverses⟩
    rcases Nat.lt_or_eq_of_le hkn with hlt | rfl
    · exact .inl ⟨k, v, hk, by omega, hreverses⟩
    · obtain ⟨hmoves, hlast⟩ := (Trajectory.reverses_succ_iff htolerance).mp hreverses
      have hstill := Graph.not_still_of_moves htolerance hmoves
      exact .inr ⟨hk, _, hp.mem_moves_iff.mpr ⟨v, hstill, rfl⟩, hmoves, (hp.falling v _).mpr hlast⟩

/-- **Every round follows the trajectory.** -/
theorem Follows.round (htolerance : 0 < tolerance)
    (hp : Follows (g.trajectory source nodes now) nodes bound tolerance n p) :
    Follows (g.trajectory source nodes now) nodes bound tolerance (n + 1)
      (p.round tolerance (bound / 2 < n + 1) (g.inboxes source nodes now)) where
  tabulates := tabulates_round hp.tabulates
  falling := hp.falling_round htolerance
  reversed := hp.reversed_round htolerance
  residual _ := hp.residual_round
  worst _ hpos := hp.worst_round hpos

end Propagation

/-- **The states of a run follow the trajectory.** -/
theorem Graph.follows_propagation (htolerance : 0 < tolerance) (n : ℕ) :
    Propagation.Follows (g.trajectory source nodes now) nodes bound tolerance n
      (g.propagation source nodes now bound tolerance n) := by
  induction n with
  | zero => exact Propagation.follows_start
  | succ n ih => exact ih.round htolerance

/-- A run that diverges reports the largest changes of its first and of its last round. -/
theorem Graph.largestChange_of_diverged (hbound : 0 < bound) (htolerance : 0 < tolerance)
    {first last : α} {rounds : ℕ}
    (h : g.propagate source nodes now bound tolerance = .diverged v first last rounds) :
    first = (g.trajectory source nodes now).largestChange nodes 1 ∧
      last = (g.trajectory source nodes now).largestChange nodes bound ∧ tolerance < last := by
  have hfollows (n : ℕ) : Propagation.Follows (g.trajectory source nodes now) nodes bound tolerance
      n (g.propagation source nodes now bound tolerance n) := follows_propagation htolerance n
  rcases g.propagate_ends source nodes now bound tolerance with
    ⟨k, -, -, -, -, hend⟩ | ⟨hmoved, hend⟩
  · rw [h] at hend
    cases hend
  · rw [h] at hend
    split_ifs at hend
    obtain ⟨-, rfl, rfl, -⟩ := BeliefOutcome.diverged.inj hend
    refine ⟨?_, (hfollows bound).residual hbound,
      Std.not_le.mp (hmoved bound hbound (Nat.le_refl _))⟩
    rw [Nat.min_eq_left hbound]
    exact (hfollows 1).residual one_pos

end Follows

namespace Graph

/-! ## Outcomes -/

/-- **The outcome of a run is a matter of its trajectory**: its changes and their late reversals. -/
theorem propagate_eq_trajectory [OrderedArith α] (g : Graph α) (source : NodeId)
    (nodes : KeySet NodeId) (now : Instant) {bound : ℕ} {tolerance : α} (hbound : 0 < bound)
    (htolerance : 0 < tolerance) :
    let x := g.trajectory source nodes now
    let r := x.largestChange nodes
    let outcome := g.propagate source nodes now bound tolerance
    ((∃ k, 0 < k ∧ k ≤ bound ∧ r k ≤ tolerance) →
      ∃ k b, IsLeast {k | 0 < k ∧ k ≤ bound ∧ r k ≤ tolerance} k ∧
        outcome = .converged k b ∧ b.Tabulates nodes (x k)) ∧
    ((¬ ∃ k, 0 < k ∧ k ≤ bound ∧ r k ≤ tolerance) →
      ((∃ k v, bound / 2 < k ∧ k ≤ bound ∧ x.Reverses tolerance k v) →
        ∃ v, IsLeast {v | nodes.contains v = true ∧
            Arith.magnitude (x.change bound v) = r bound} v ∧
          outcome = .diverged v (r 1) (r bound) bound) ∧
      ((¬ ∃ k v, bound / 2 < k ∧ k ≤ bound ∧ x.Reverses tolerance k v) →
        ∃ b, outcome = .settling bound (r bound) b ∧ b.Tabulates nodes (x bound))) := by
  intro x r outcome
  have hfollows (n : ℕ) : Propagation.Follows x nodes bound tolerance n
      (g.propagation source nodes now bound tolerance n) := follows_propagation htolerance n
  have hresidual (k : ℕ) (hk : 0 < k) :
      (g.propagation source nodes now bound tolerance k).residual = r k := (hfollows k).residual hk
  rcases g.propagate_ends source nodes now bound tolerance with
    ⟨k, hk, hkn, hle, hbefore, hend⟩ | ⟨hmoved, hend⟩
  · rw [hresidual k hk] at hle
    refine ⟨fun _ => ⟨k, _, ⟨⟨hk, hkn, hle⟩, ?_⟩, hend, (hfollows k).tabulates⟩,
      fun hnone => absurd ⟨k, hk, hkn, hle⟩ hnone⟩
    rintro j ⟨hj, -, hle'⟩
    by_contra hlt
    apply hbefore j hj (not_le.mp hlt)
    rw [hresidual j hj]
    exact hle'
  · refine ⟨?_, fun _ => ⟨fun hreverses => ?_, fun hreverses => ?_⟩⟩
    · rintro ⟨k, hk, hkn, hle⟩
      rw [← hresidual k hk] at hle
      exact absurd hle (hmoved k hk hkn)
    · have hpos : 0 < (g.propagation source nodes now bound tolerance bound).residual :=
        Std.lt_trans htolerance (Std.not_le.mp (hmoved bound hbound (Nat.le_refl _)))
      have hworst := (hfollows bound).worst hbound hpos
      rw [if_pos ((hfollows bound).reversed.mpr hreverses), Nat.min_eq_left hbound,
        hresidual 1 one_pos, hresidual bound hbound] at hend
      rw [hresidual bound hbound] at hworst
      exact ⟨_, hworst, hend⟩
    · rw [if_neg (mt (hfollows bound).reversed.mp hreverses), hresidual bound hbound] at hend
      exact ⟨_, hend, (hfollows bound).tabulates⟩

section Quarrel

/-- The source endorses a little a node that endorses another one, which distrusts the first. -/
def quarrel : Graph ℚ :=
  Graph.empty.addAll
    [⟨0, 1, 1, 0, 0, 0, 100⟩, ⟨1, 2, 1, 0, 0, 3, 100⟩, ⟨2, 1, -1, 0, 0, 3, 100⟩]

/-- What one believes of the other turns round after every other round. -/
theorem propagate_eq_trajectory_quarrel :
    0 < 4 ∧ (0 : ℚ) < 1 / 100 ∧
      ∃ v, IsLeast {v | (quarrel.reachable 0 1).contains v = true ∧
          Arith.magnitude ((quarrel.trajectory 0 (quarrel.reachable 0 1) 1).change 4 v) =
            (quarrel.trajectory 0 (quarrel.reachable 0 1) 1).largestChange
              (quarrel.reachable 0 1) 4} v ∧
        quarrel.propagate 0 (quarrel.reachable 0 1) 1 4 (1 / 100) =
          .diverged v (1 / 10) (2 / 25) 4 := by
  have hlate : (quarrel.trajectory 0 (quarrel.reachable 0 1) 1).Reverses (1 / 100) 3 1 := by
    have hrose : 0 < (quarrel.trajectory 0 (quarrel.reachable 0 1) 1).change 1 1 := by
      decide +kernel
    have hfell : (quarrel.trajectory 0 (quarrel.reachable 0 1) 1).change 3 1 < 0 := by
      decide +kernel
    refine ⟨by decide +kernel, 1, ⟨one_pos, by decide, by decide +kernel, ?_⟩, .inr ⟨hrose, hfell⟩⟩
    intro i hi hi2
    obtain rfl : i = 2 := by omega
    decide +kernel
  have hfirst : (quarrel.trajectory 0 (quarrel.reachable 0 1) 1).largestChange
    (quarrel.reachable 0 1) 1 = 1 / 10 := by decide +kernel
  have hlast : (quarrel.trajectory 0 (quarrel.reachable 0 1) 1).largestChange
    (quarrel.reachable 0 1) 4 = 2 / 25 := by decide +kernel
  have hmoved : ¬ ∃ k, 0 < k ∧ k ≤ 4 ∧
      (quarrel.trajectory 0 (quarrel.reachable 0 1) 1).largestChange
        (quarrel.reachable 0 1) k ≤ 1 / 100 := by
    rintro ⟨k, hk, hk4, hle⟩
    interval_cases k <;> revert hle <;> decide +kernel
  refine ⟨by decide, by norm_num, ?_⟩
  have h := ((quarrel.propagate_eq_trajectory 0 (quarrel.reachable 0 1) 1 (by decide)
    (by norm_num)).2 hmoved).1 ⟨3, 1, by decide, by decide, hlate⟩
  rw [hfirst, hlast] at h
  rw [hlast]
  exact h

end Quarrel

end Graph

end WebOfTrust
