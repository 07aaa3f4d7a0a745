import Mathlib
import WebOfTrust.Proofs.Belief.Trusting

/-!
# How long beliefs move

A belief moves in a round only if one of those that it is made of moved in the round before. So a
move can be followed back along as many messages as rounds have gone by, and without such a long
chain of messages nothing moves any more.

* `StepsIn`: a number of steps leads from one place to another; `exists_rank_of_acyclic`,
  `acyclic_of_rank`, `StepsIn.lt_card`: without a cycle there are fewer steps than places;
* `Tells`: there is a message from one node about another;
* **`Propagation.get?_after_succ`**: without a chain of messages to a node its belief stays;
  `Propagation.exists_chain_of_residual`: to the node of the largest move there is one;
* `Propagation.reversed_foldl_turn`: no belief reverses its direction in the first round;
* **`Graph.exists_chain_of_diverged`**: what a run needs to diverge.
-/

namespace WebOfTrust

/-! ## Chains of steps -/

/-- A number of steps leads from one place to another. -/
def StepsIn {β : Type} (R : β → β → Prop) : ℕ → β → β → Prop
  | 0, a, b => a = b
  | n + 1, a, c => ∃ b, StepsIn R n a b ∧ R b c

namespace StepsIn

variable {β : Type} {R S : β → β → Prop} {a b c : β} {m n : ℕ}

theorem mono (hRS : ∀ a b, R a b → S a b) (h : StepsIn R n a b) : StepsIn S n a b := by
  induction n generalizing b with
  | zero => exact h
  | succ n ih =>
    obtain ⟨d, hd, hstep⟩ := h
    exact ⟨d, ih hd, hRS d b hstep⟩

theorem trans (h : StepsIn R m a b) (h' : StepsIn R n b c) : StepsIn R (m + n) a c := by
  induction n generalizing c with
  | zero =>
    cases h'
    exact h
  | succ n ih =>
    obtain ⟨d, hd, hstep⟩ := h'
    exact ⟨d, ih hd, hstep⟩

theorem exists_first (hn : 0 < n) (h : StepsIn R n a c) : ∃ b, R a b := by
  induction n generalizing c with
  | zero => exact absurd hn (lt_irrefl 0)
  | succ n ih =>
    obtain ⟨d, hd, hstep⟩ := h
    rcases n.eq_zero_or_pos with rfl | hpos
    · cases hd
      exact ⟨c, hstep⟩
    · exact ih hpos hd

theorem rank_le {f : β → ℕ} (hf : ∀ a b, R a b → f a < f b) (h : StepsIn R n a b) :
    f a + n ≤ f b := by
  induction n generalizing b with
  | zero =>
    cases h
    omega
  | succ n ih =>
    obtain ⟨d, hd, hstep⟩ := h
    have := ih hd
    have := hf d b hstep
    omega

end StepsIn

section Acyclic

variable {β : Type} {R : β → β → Prop} {N : Finset β}

/-- Steps without a cycle among finitely many places rise in a rank below their number. -/
theorem exists_rank_of_acyclic (hN : ∀ a b, R a b → a ∈ N ∧ b ∈ N)
    (hacyclic : ∀ a, ¬ Relation.TransGen R a a) :
    ∃ f : β → ℕ, (∀ a b, R a b → f a < f b) ∧ ∀ a b, R a b → f b < N.card := by
  classical
  let before (b : β) : Finset β := N.filter fun a => Relation.TransGen R a b
  have hself : ∀ b, b ∉ before b := fun b hb => hacyclic b (Finset.mem_filter.mp hb).2
  refine ⟨fun b => (before b).card, fun a b hab => ?_, fun a b hab => ?_⟩
  · apply Finset.card_lt_card
    refine ⟨fun c hc => ?_, fun hsub => ?_⟩
    · obtain ⟨hcN, hca⟩ := Finset.mem_filter.mp hc
      exact Finset.mem_filter.mpr ⟨hcN, hca.tail hab⟩
    · exact hself a (hsub (Finset.mem_filter.mpr ⟨(hN a b hab).1, .single hab⟩))
  · apply Finset.card_lt_card
    exact ⟨Finset.filter_subset _ _, fun hsub => hself b (hsub (hN a b hab).2)⟩

theorem acyclic_of_rank {R : β → β → Prop} {f : β → ℕ} (hf : ∀ a b, R a b → f a < f b) (a : β) :
    ¬ Relation.TransGen R a a := by
  have hrise : ∀ b, Relation.TransGen R a b → f a < f b := by
    intro b hab
    induction hab with
    | single hstep => exact hf _ _ hstep
    | tail _ hstep ih => exact ih.trans (hf _ _ hstep)
  exact fun ha => lt_irrefl _ (hrise a ha)

theorem StepsIn.lt_card (hN : ∀ a b, R a b → a ∈ N ∧ b ∈ N)
    (hacyclic : ∀ a, ¬ Relation.TransGen R a a) {n : ℕ} (hn : 0 < n) {a c : β}
    (h : StepsIn R n a c) : n < N.card := by
  obtain ⟨f, hrise, hlt⟩ := exists_rank_of_acyclic hN hacyclic
  have hrank := h.rank_le hrise
  obtain ⟨n, rfl⟩ := Nat.exists_eq_succ_of_ne_zero hn.ne'
  obtain ⟨d, -, hstep⟩ := h
  have := hlt d c hstep
  omega

end Acyclic

/-! ## Messages that say the same -/

variable {inboxes : List (Inbox ℚ)} {b b' : Beliefs ℚ}

/-- There is a message from one node about another. -/
def Tells (inboxes : List (Inbox ℚ)) (u v : NodeId) : Prop :=
  ∃ inbox ∈ inboxes, inbox.node = v ∧ ∃ m ∈ inbox.messages, m.source = u

theorem Inbox.mean?_congr {inbox : Inbox ℚ}
    (h : ∀ m ∈ inbox.messages, b.get? m.source = b'.get? m.source) :
    inbox.mean? b = inbox.mean? b' := by
  have hopinion : inbox.messages.map (fun m => m.weight * m.opinion b) =
      inbox.messages.map fun m => m.weight * m.opinion b' := by
    apply List.map_congr_left
    intro m hm
    rw [Message.opinion, Message.opinion, h m hm]
  rw [Inbox.mean?_eq, Inbox.mean?_eq, hopinion]

theorem Inbox.mean?_of_silent {inbox : Inbox ℚ} (h : inbox.messages = []) :
    inbox.mean? b = none := by
  simp [Inbox.mean?_eq, h]

theorem largestMove_cases (still : NodeId) (l : List (Move ℚ)) :
    largestMove still l = (0, still) ∨
      ∃ m ∈ l, largestMove still l = (Arith.magnitude m.change, m.node) := by
  induction l using List.reverseRecOn with
  | nil => exact .inl rfl
  | append_singleton rest m ih =>
    rw [largestMove_concat]
    split_ifs
    · exact .inr ⟨m, by simp, rfl⟩
    · refine ih.imp_right ?_
      rintro ⟨m', hm', heq⟩
      exact ⟨m', List.mem_append_left _ hm', heq⟩

namespace Propagation

variable {p : Propagation ℚ} {bound : ℕ} {tolerance : ℚ} {late : Bool}

/-! ## Moves follow moves -/

/-- **A belief stays if no chain of messages to its node is as long as the rounds gone by.** -/
theorem get?_after_succ (hd : Distinct inboxes) {n : ℕ} {v : NodeId}
    (h : ∀ u, ¬ StepsIn (Tells inboxes) (n + 1) u v) :
    (after inboxes bound tolerance p (n + 1)).beliefs.get? v =
      (after inboxes bound tolerance p n).beliefs.get? v := by
  induction n generalizing v with
  | zero =>
    apply beliefs_round_of_still
    intro inbox hi hv
    apply Inbox.mean?_of_silent
    apply List.eq_nil_iff_forall_not_mem.mpr
    intro m hm
    exact h m.source ⟨m.source, rfl, inbox, hi, hv, m, hm, rfl⟩
  | succ n ih =>
    by_cases hv : ∀ inbox ∈ inboxes, inbox.node = v →
        inbox.mean? (after inboxes bound tolerance p (n + 1)).beliefs = none
    · exact beliefs_round_of_still hv
    · push Not at hv
      obtain ⟨inbox, hi, rfl, hne⟩ := hv
      obtain ⟨x, hx⟩ := Option.ne_none_iff_exists'.mp hne
      -- The sources of the messages did not move, so the mean is what it was a round ago.
      have hbefore : inbox.mean? (after inboxes bound tolerance p n).beliefs = some x := by
        rw [← hx]
        apply Inbox.mean?_congr
        intro m hm
        refine (ih fun u hu => ?_).symm
        exact h u ⟨m.source, hu, inbox, hi, rfl, m, hm, rfl⟩
      exact (beliefs_round_of_mean? hd hi hx).trans (beliefs_round_of_mean? hd hi hbefore).symm

theorem exists_move_of_residual (h : 0 < (p.round tolerance late inboxes).residual) :
    ∃ m ∈ moves inboxes p, m.node = (p.round tolerance late inboxes).worst ∧ m.change ≠ 0 := by
  have hlargest : largestMove p.worst (moves inboxes p) =
      ((p.round tolerance late inboxes).residual, (p.round tolerance late inboxes).worst) := rfl
  rcases largestMove_cases p.worst (moves inboxes p) with hnone | ⟨m, hm, heq⟩
  · rw [hnone, Prod.mk.injEq] at hlargest
    exact absurd hlargest.1 h.ne
  · rw [heq, Prod.mk.injEq] at hlargest
    refine ⟨m, hm, hlargest.2, fun hstill => ?_⟩
    rw [← hlargest.1, hstill] at h
    exact lt_irrefl _ h

/-- **A chain of messages as long as the rounds gone by leads to the largest move.** -/
theorem exists_chain_of_residual (hd : Distinct inboxes) {n : ℕ}
    (h : 0 < (after inboxes bound tolerance p (n + 1)).residual) :
    ∃ u, StepsIn (Tells inboxes) (n + 1) u (after inboxes bound tolerance p (n + 1)).worst := by
  obtain ⟨m, hm, hworst, hmoved⟩ := exists_move_of_residual h
  obtain ⟨inbox, hi, x, hx, rfl⟩ := exists_mean?_of_mem_moves hm
  rw [after, ← hworst]
  by_contra hno
  push Not at hno
  have hstill : (after inboxes bound tolerance p (n + 1)).beliefs.get? inbox.node =
      (after inboxes bound tolerance p n).beliefs.get? inbox.node := get?_after_succ hd hno
  have hbefore := hstill.symm.trans (beliefs_round_of_mean? hd hi hx)
  simp [hbefore] at hmoved

/-! ## Reversals need two moves -/

theorem reversed_foldl_turn {l : List (Move ℚ)} (hl : l.Pairwise (·.node ≠ ·.node))
    (hnew : ∀ m ∈ l, p.falling.get? m.node = none) :
    (l.foldl (turn tolerance late) p).reversed = p.reversed := by
  induction l generalizing p with
  | nil => rfl
  | cons m rest ih =>
    obtain ⟨hm, hrest⟩ := List.pairwise_cons.mp hl
    obtain ⟨hnone, hnew⟩ := List.forall_mem_cons.mp hnew
    have hturn : (p.turn tolerance late m).reversed = p.reversed := by
      unfold turn
      split_ifs
      · simp [hnone]
      · rfl
    rw [List.foldl_cons, ih hrest, hturn]
    intro m' hm'
    unfold turn
    split_ifs
    · rw [Table.get?_insert_of_ne _ _ (hm m' hm').symm]
      exact hnew m' hm'
    · exact hnew m' hm'

theorem reversed_after_one (hd : Distinct inboxes) (source : NodeId) (nodes : KeySet NodeId) :
    (after inboxes bound tolerance (start source nodes) 1).reversed = false :=
  reversed_foldl_turn (pairwise_moves hd _) fun _ _ => rfl

end Propagation

/-! ## Runs that diverge -/

namespace Graph

variable {g : Graph ℚ} {source : NodeId} {nodes : KeySet NodeId} {now : Instant} {bound : ℕ}
  {tolerance : ℚ}

/-- **A chain of messages as long as the bound leads to where beliefs diverge.** -/
theorem exists_chain_of_diverged (hbound : 0 < bound) (htolerance : 0 ≤ tolerance)
    {v : NodeId} {first last : ℚ} {rounds : ℕ}
    (h : g.propagate source nodes now bound tolerance = .diverged v first last rounds) :
    1 < bound ∧ ∃ u, StepsIn (Tells (g.inboxes source nodes now)) bound u v := by
  have hd := g.distinct_inboxes source nodes now
  rcases g.propagate_ends source nodes now bound tolerance with
    ⟨k, -, -, -, -, heq⟩ | ⟨hmoved, heq⟩
  · cases h.symm.trans heq
  rw [h] at heq
  split_ifs at heq with hreversed
  cases heq
  obtain ⟨n, rfl⟩ := Nat.exists_eq_succ_of_ne_zero hbound.ne'
  have hresidual := htolerance.trans_lt (not_le.mp (hmoved _ hbound le_rfl))
  refine ⟨?_, Propagation.exists_chain_of_residual hd hresidual⟩
  cases n with
  | zero =>
    have hfirst : (g.propagation source nodes now 1 tolerance 1).reversed = false :=
      Propagation.reversed_after_one hd source nodes
    exact absurd (hfirst.symm.trans hreversed) Bool.false_ne_true
  | succ n => omega

end Graph

end WebOfTrust
