import Mathlib
import WebOfTrust.Belief
import WebOfTrust.Table

/-!
# Rounds of belief propagation

A run of belief propagation reads its outcome off the states after its rounds. A round sets the
belief in each node with an inbox to the mean of what is said of it, and nothing else.

* `Table.get?_foldl_insert_of_mem`, `Table.get?_foldl_insert_of_ne`: look-ups in a filled table;
* `Inbox.mean?_eq_foldl`, `largestMove_concat`: what a round is made of;
* `Propagation.beliefs_round_of_mean?`, `Propagation.beliefs_round_of_still`: the beliefs after a
  round;
* `Propagation.after`, `Graph.propagation`: the state after a number of rounds;
* **`Graph.propagate_ends`**: how the outcome of a run follows from these states;
  `Graph.exists_converged`: a run ends with the first of them that has settled.
-/

namespace WebOfTrust

/-! ## Filling a table -/

namespace Table

variable {κ ν β : Type} [Key κ] {f : β → κ} {w : β → ν}

theorem get?_foldl_insert_of_ne {l : List β} {k : κ} (h : ∀ x ∈ l, f x ≠ k) (t : Table κ ν) :
    (l.foldl (fun t x => t.insert (f x) (w x)) t).get? k = t.get? k := by
  induction l generalizing t with
  | nil => rfl
  | cons y rest ih =>
    obtain ⟨hy, hrest⟩ := List.forall_mem_cons.mp h
    rw [List.foldl_cons, ih hrest, get?_insert_of_ne _ _ (Ne.symm hy)]

theorem get?_foldl_insert_of_mem {l : List β} (hl : l.Pairwise (f · ≠ f ·)) {x : β}
    (hx : x ∈ l) (t : Table κ ν) :
    (l.foldl (fun t x => t.insert (f x) (w x)) t).get? (f x) = some (w x) := by
  induction l generalizing t with
  | nil => cases hx
  | cons y rest ih =>
    obtain ⟨hy, hrest⟩ := List.pairwise_cons.mp hl
    rw [List.foldl_cons]
    rcases List.mem_cons.mp hx with rfl | hx
    · rw [get?_foldl_insert_of_ne fun z hz => (hy z hz).symm, get?_insert_self]
    · exact ih hrest hx _

end Table

/-! ## One round -/

variable {α : Type} [Arith α] {inboxes : List (Inbox α)} {bound : ℕ} {tolerance : α}

theorem foldl_pair {β : Type} (f w : β → α) (l : List β) (s t : α) :
    l.foldl (fun (sums : α × α) m => (sums.1 + f m, sums.2 + w m)) (s, t) =
      ((l.map f).foldl (· + ·) s, (l.map w).foldl (· + ·) t) := by
  induction l generalizing s t with
  | nil => rfl
  | cons m rest ih => exact ih _ _

theorem Inbox.mean?_eq_foldl (inbox : Inbox α) (b : Beliefs α) :
    inbox.mean? b =
      if (inbox.messages.map (·.weight)).foldl (· + ·) 0 ≤ 0 then none
      else some ((inbox.messages.map fun m => m.weight * m.opinion b).foldl (· + ·) 0 /
        (inbox.messages.map (·.weight)).foldl (· + ·) 0) := by
  rw [mean?, foldl_pair]

theorem largestMove_concat (still : NodeId) (l : List (Move α)) (m : Move α) :
    largestMove still (l ++ [m]) =
      if (largestMove still l).1 < Arith.magnitude m.change then
        (Arith.magnitude m.change, m.node)
      else largestMove still l := List.foldl_append ..

theorem Inbox.move?_node {b : Beliefs α} {inbox : Inbox α} {m : Move α}
    (h : inbox.move? b = some m) : m.node = inbox.node := by
  unfold move? at h
  split at h
  next => exact (congrArg Move.node (Option.some.inj h)).symm
  next => cases h

theorem Inbox.move?_eq_none {b : Beliefs α} {inbox : Inbox α} (h : inbox.mean? b = none) :
    inbox.move? b = none := by
  rw [move?, h]

theorem Inbox.move?_eq_some {b : Beliefs α} {inbox : Inbox α} {x : α}
    (h : inbox.mean? b = some x) :
    inbox.move? b = some ⟨inbox.node, x, x - (b.get? inbox.node).getD Arith.half⟩ := by
  rw [move?, h]

/-- No two inboxes belong to one node. -/
def Distinct (inboxes : List (Inbox α)) : Prop := inboxes.Pairwise (·.node ≠ ·.node)

theorem Graph.distinct_inboxes (g : Graph α) (source : NodeId) (nodes : KeySet NodeId)
    (now : Instant) : Distinct (g.inboxes source nodes now) :=
  List.pairwise_map.mpr ((nodes.pairwise_keys).filter _)

namespace Propagation

/-- The moves of a round. -/
def moves (inboxes : List (Inbox α)) (p : Propagation α) : List (Move α) :=
  inboxes.filterMap (·.move? p.beliefs)

variable {p : Propagation α} {late : Bool}

theorem mem_moves_iff {m : Move α} :
    m ∈ moves inboxes p ↔ ∃ inbox ∈ inboxes, inbox.move? p.beliefs = some m :=
  List.mem_filterMap

theorem exists_mean?_of_mem_moves {m : Move α} (hm : m ∈ moves inboxes p) :
    ∃ inbox ∈ inboxes, ∃ x, inbox.mean? p.beliefs = some x ∧
      m = ⟨inbox.node, x, x - (p.beliefs.get? inbox.node).getD Arith.half⟩ := by
  obtain ⟨inbox, hi, hmove⟩ := mem_moves_iff.mp hm
  cases hx : inbox.mean? p.beliefs with
  | none =>
    rw [Inbox.move?_eq_none hx] at hmove
    cases hmove
  | some x =>
    rw [Inbox.move?_eq_some hx] at hmove
    exact ⟨inbox, hi, x, hx, (Option.some.inj hmove).symm⟩

theorem pairwise_moves (hd : Distinct inboxes) (p : Propagation α) :
    (moves inboxes p).Pairwise (·.node ≠ ·.node) := by
  refine List.Pairwise.filterMap _ (fun i j hne m hm m' hm' => ?_) hd
  rw [Inbox.move?_node hm, Inbox.move?_node hm']
  exact hne

theorem beliefs_round (p : Propagation α) : (p.round tolerance late inboxes).beliefs =
    (moves inboxes p).foldl (fun b m => b.insert m.node m.belief) p.beliefs := rfl

theorem beliefs_round_of_still {v : NodeId}
    (h : ∀ inbox ∈ inboxes, inbox.node = v → inbox.mean? p.beliefs = none) :
    (p.round tolerance late inboxes).beliefs.get? v = p.beliefs.get? v := by
  rw [beliefs_round]
  refine Table.get?_foldl_insert_of_ne (fun m hm hv => ?_) _
  obtain ⟨inbox, hi, x, hx, rfl⟩ := exists_mean?_of_mem_moves hm
  rw [h inbox hi hv] at hx
  cases hx

theorem beliefs_round_of_mean? (hd : Distinct inboxes) {inbox : Inbox α} (hi : inbox ∈ inboxes)
    {x : α} (hx : inbox.mean? p.beliefs = some x) :
    (p.round tolerance late inboxes).beliefs.get? inbox.node = some x := by
  have hm := mem_moves_iff.mpr ⟨inbox, hi, Inbox.move?_eq_some hx⟩
  rw [beliefs_round]
  exact Table.get?_foldl_insert_of_mem (pairwise_moves hd p) hm _

theorem isSome_beliefs_round (hd : Distinct inboxes) {v : NodeId}
    (h : (p.beliefs.get? v).isSome = true) :
    ((p.round tolerance late inboxes).beliefs.get? v).isSome = true := by
  by_cases hv : ∀ inbox ∈ inboxes, inbox.node = v → inbox.mean? p.beliefs = none
  · rw [beliefs_round_of_still hv]
    exact h
  · push Not at hv
    obtain ⟨inbox, hi, rfl, hne⟩ := hv
    obtain ⟨x, hx⟩ := Option.ne_none_iff_exists'.mp hne
    rw [beliefs_round_of_mean? hd hi hx]
    rfl

/-! ## All rounds -/

theorem get?_initialBeliefs (source : NodeId) (nodes : KeySet NodeId) (v : NodeId) :
    (initialBeliefs (α := α) source nodes).get? v =
      if nodes.contains v = true then some (if v = source then 1 else Arith.half) else none := by
  unfold initialBeliefs
  by_cases hv : nodes.contains v = true
  · rw [if_pos hv]
    exact Table.get?_foldl_insert_of_mem (f := id) nodes.pairwise_keys
      (Table.mem_keys_iff.mpr hv) Table.empty
  · rw [if_neg hv]
    refine Table.get?_foldl_insert_of_ne (f := id) ?_ Table.empty
    rintro u hu rfl
    exact hv (Table.mem_keys_iff.mp hu)

/-- The state after a number of rounds, wherever the run may have ended. -/
def after (inboxes : List (Inbox α)) (bound : ℕ) (tolerance : α) (start : Propagation α) :
    ℕ → Propagation α
  | 0 => start
  | n + 1 => (after inboxes bound tolerance start n).round tolerance (bound / 2 < n + 1) inboxes

/-- How a run of a bounded number of rounds ends that passes through some states. -/
def Ends (bound : ℕ) (tolerance : α) (state : ℕ → Propagation α) (outcome : BeliefOutcome α) :
    Prop :=
  (∃ k, 0 < k ∧ k ≤ bound ∧ (state k).residual ≤ tolerance ∧
    (∀ j, 0 < j → j < k → ¬ (state j).residual ≤ tolerance) ∧
    outcome = .converged k (state k).beliefs) ∨
  ((∀ j, 0 < j → j ≤ bound → ¬ (state j).residual ≤ tolerance) ∧
    outcome =
      if (state bound).reversed then
        .diverged (state bound).worst (state (min 1 bound)).residual (state bound).residual bound
      else .settling bound (state bound).residual (state bound).beliefs)

theorem rounds_after {start : Propagation α} {left n : ℕ} {first : Option α}
    (hn : n + left = bound)
    (hfirst : first = if n = 0 then none else some (after inboxes bound tolerance start 1).residual)
    (hmoved : ∀ j, 0 < j → j ≤ n →
      ¬ (after inboxes bound tolerance start j).residual ≤ tolerance) :
    Ends bound tolerance (after inboxes bound tolerance start)
      (rounds inboxes bound tolerance left first (after inboxes bound tolerance start n)) := by
  -- By induction on the rounds left, while none of those gone by has settled.
  induction left generalizing n first with
  | zero =>
    obtain rfl : n = bound := hn
    refine .inr ⟨hmoved, ?_⟩
    rw [rounds]
    have : first.getD (after inboxes n tolerance start n).residual =
        (after inboxes n tolerance start (min 1 n)).residual := by
      rw [hfirst]
      cases n with
      | zero => rfl
      | succ n => rw [Nat.min_eq_left (by omega)]; rfl
    rw [this]
  | succ left ih =>
    have hround : bound - left = n + 1 := by omega
    rw [rounds, hround]
    split
    next hle =>
      have hsettled := fun j hj (hjn : j < n + 1) => hmoved j hj (by omega)
      exact .inl ⟨n + 1, by omega, by omega, hle, hsettled, rfl⟩
    next hgt =>
      refine ih (n := n + 1) (by omega) ?_ fun j hj hjn => ?_
      · rw [hfirst]
        cases n <;> rfl
      · rcases Nat.lt_or_eq_of_le hjn with hlt | rfl
        · exact hmoved j hj (by omega)
        · exact hgt

end Propagation

/-- The state of a run after a number of rounds. -/
def Graph.propagation (g : Graph α) (source : NodeId) (nodes : KeySet NodeId) (now : Instant)
    (bound : ℕ) (tolerance : α) : ℕ → Propagation α :=
  Propagation.after (g.inboxes source nodes now) bound tolerance (Propagation.start source nodes)

/-- **A run ends with the first round that has settled**, or else with the last one. -/
theorem Graph.propagate_ends (g : Graph α) (source : NodeId) (nodes : KeySet NodeId)
    (now : Instant) (bound : ℕ) (tolerance : α) :
    Propagation.Ends bound tolerance (g.propagation source nodes now bound tolerance)
      (g.propagate source nodes now bound tolerance) :=
  Propagation.rounds_after (Nat.zero_add bound) rfl fun j hj hle => by omega

theorem Graph.exists_converged {g : Graph α} {source : NodeId} {nodes : KeySet NodeId}
    {now : Instant} {n : ℕ} (hn : 0 < n) (hbound : n ≤ bound)
    (h : (g.propagation source nodes now bound tolerance n).residual ≤ tolerance) :
    ∃ rounds beliefs, 0 < rounds ∧ rounds ≤ n ∧
      g.propagate source nodes now bound tolerance = .converged rounds beliefs := by
  rcases g.propagate_ends source nodes now bound tolerance with
    ⟨k, hk, -, -, hbefore, heq⟩ | ⟨hmoved, -⟩
  · refine ⟨k, _, hk, ?_, heq⟩
    by_contra hlt
    exact hbefore n hn (Nat.lt_of_not_le hlt) h
  · exact absurd h (hmoved n hn hbound)

theorem Graph.settled_of_converged {g : Graph α} {source : NodeId} {nodes : KeySet NodeId}
    {now : Instant} {rounds : ℕ} {beliefs : Beliefs α}
    (h : g.propagate source nodes now bound tolerance = .converged rounds beliefs) :
    let p := g.propagation source nodes now bound tolerance rounds
    0 < rounds ∧ p.residual ≤ tolerance ∧ beliefs = p.beliefs := by
  rcases g.propagate_ends source nodes now bound tolerance with
    ⟨k, hk, -, hle, -, hend⟩ | ⟨-, hend⟩
  · rw [h] at hend
    obtain ⟨rfl, rfl⟩ := BeliefOutcome.converged.inj hend
    exact ⟨hk, hle, rfl⟩
  · rw [h] at hend
    split_ifs at hend

end WebOfTrust
