import Mathlib
import WebOfTrust.Proofs.Context.Steps
import WebOfTrust.Proofs.Graph.Standing

/-!
# Events of a history

What happened at the places of a history, by the operations and their answers, and what a single
operation adds to it.

* `run_concat_snd`, `run_concat_fst`: a history with one more operation;
* `Context.Answered`: an operation and its answer at some place; **`answered_concat_iff`**;
* `Context.PutAt`, `Context.RevokedAt`, `Context.Told`: edges put and revoked, times that the clock
  was told of; `putAt_concat_iff`, `revokedAt_concat_iff`, `told_concat_iff`;
* **`step_standing`**, **`step_clock`**: what a step does to the edge of a pair, and to a logical
  clock, by the event that it is.
-/

namespace WebOfTrust

variable {α : Type} [Arith α] [Logarithm α]

namespace Context

variable (c : Context α) (ops : List (Operation α)) (op : Operation α)

/-! ## One more operation -/

theorem run_concat_snd : (c.run (ops ++ [op])).2 = ((c.run ops).2.step op).2 := by
  induction ops generalizing c with
  | nil => rfl
  | cons head rest ih => exact ih (c.step head).2

theorem run_concat_fst :
    (c.run (ops ++ [op])).1 = (c.run ops).1 ++ [((c.run ops).2.step op).1] := by
  induction ops generalizing c with
  | nil => rfl
  | cons head rest ih => exact congrArg _ (ih (c.step head).2)

@[simp] theorem length_run_fst : (c.run ops).1.length = ops.length := by
  induction ops generalizing c with
  | nil => rfl
  | cons head rest ih => exact congrArg (· + 1) (ih (c.step head).2)

/-! ## Places -/

/-- An operation and its answer stand at some place of a history. -/
def Answered (i : ℕ) (op : Operation α) (reply : Except (Fault α) (Reply α)) : Prop :=
  ops[i]? = some op ∧ (c.run ops).1[i]? = some reply

variable {c ops op} {i : ℕ} {o : Operation α} {reply : Except (Fault α) (Reply α)}

theorem Answered.lt (h : c.Answered ops i o reply) : i < ops.length :=
  (List.getElem?_eq_some_iff.mp h.1).1

theorem Answered.eq_step (h : c.Answered ops i o reply) :
    reply = ((c.run (ops.take i)).2.step o).1 :=
  Option.some.inj (h.2.symm.trans (c.run_getElem? h.1))

/-- **One more operation stands with its answer at the next place.** -/
theorem answered_concat_iff : c.Answered (ops ++ [op]) i o reply ↔
    c.Answered ops i o reply ∨ i = ops.length ∧ o = op ∧ reply = ((c.run ops).2.step op).1 := by
  unfold Answered
  rw [run_concat_fst]
  rcases lt_trichotomy i ops.length with hi | rfl | hi
  · rw [List.getElem?_append_left hi, List.getElem?_append_left (by rwa [length_run_fst])]
    simp [hi.ne]
  · rw [List.getElem?_concat_length, ← length_run_fst c ops, List.getElem?_concat_length]
    simp [eq_comm]
  · have hnone : ops[i]? = none := List.getElem?_eq_none hi.le
    rw [List.getElem?_eq_none (by simp; omega)]
    simp [hnone, hi.ne']

/-! ## Edges put and revoked -/

variable (c ops)

/-- An edge was put at some place of a history. -/
def PutAt (i : ℕ) (e : Edge α) : Prop := c.Answered ops i (.add e) (.ok .done)

/-- The edge of a pair was revoked at some place of a history, when the clock showed some time. -/
def RevokedAt (i : ℕ) (a : Arc) (t : Instant) : Prop :=
  (∃ reply, c.Answered ops i (.revoke a) (.ok reply)) ∧ (c.run (ops.take i)).2.now = t

variable {c ops} {e : Edge α} {a : Arc} {t : Instant}

theorem putAt_concat_iff : c.PutAt (ops ++ [op]) i e ↔ c.PutAt ops i e ∨
    i = ops.length ∧ op = .add e ∧ ((c.run ops).2.step op).1 = .ok .done := by
  unfold PutAt
  rw [answered_concat_iff, eq_comm (a := op), eq_comm (a := ((c.run ops).2.step op).1)]

theorem revokedAt_concat_iff : c.RevokedAt (ops ++ [op]) i a t ↔ c.RevokedAt ops i a t ∨
    i = ops.length ∧ op = .revoke a ∧ (∃ reply, ((c.run ops).2.step op).1 = .ok reply) ∧
      (c.run ops).2.now = t := by
  constructor
  · rintro ⟨⟨reply, h⟩, rfl⟩
    rcases answered_concat_iff.mp h with h | ⟨rfl, hop, hreply⟩
    · exact .inl ⟨⟨reply, h⟩, by rw [List.take_append_of_le_length h.lt.le]⟩
    · exact .inr ⟨rfl, hop.symm, ⟨reply, hreply.symm⟩, by rw [List.take_left]⟩
  · rintro (⟨⟨reply, h⟩, rfl⟩ | ⟨rfl, hop, ⟨reply, hreply⟩, rfl⟩)
    · exact ⟨⟨reply, answered_concat_iff.mpr (.inl h)⟩,
        by rw [List.take_append_of_le_length h.lt.le]⟩
    · exact ⟨⟨reply, answered_concat_iff.mpr (.inr ⟨rfl, hop.symm, hreply.symm⟩)⟩,
        by rw [List.take_left]⟩

end Context

/-! ## The edge of a pair -/

namespace Context

variable (c : Context α) (op : Operation α)

omit [Logarithm α] in
theorem addEdge_eq (e : Edge α) : c.addEdge e =
    match e.fault? with
    | some f => (.error f, c)
    | none =>
      (.ok (), { c with graph := c.graph.put e, clock := c.clock.observe e.timestamp }) := by
  unfold addEdge Graph.add
  cases e.fault? <;> rfl

/-- **What a step does to the edge of a pair**: put it, revoke it, or nothing. -/
theorem step_standing (a : Arc) :
    -- An edge is put on the pair.
    (∃ e, op = .add e ∧ e.arc = a ∧ (c.step op).1 = .ok .done ∧
      (c.step op).2.graph.standing a = some (e, none)) ∨
    -- The edge of the pair is revoked.
    (∃ e, op = .revoke a ∧ (∃ reply, (c.step op).1 = .ok reply) ∧
      c.graph.standing a = some (e, none) ∧ c.now < e.expiration ∧
      (c.step op).2.graph.standing a = some (e, some c.now)) ∨
    -- It is another operation, or it fails, or it is about another pair.
    (∀ e, op = .add e → (c.step op).1 = .ok .done → e.arc ≠ a) ∧
      (op = .revoke a → ∀ reply, (c.step op).1 ≠ .ok reply) ∧
      (c.step op).2.graph.standing a = c.graph.standing a := by
  cases op with
  | add e =>
    have hstep : c.step (.add e) = ((c.addEdge e).1.map fun _ => .done, (c.addEdge e).2) := rfl
    rw [hstep, addEdge_eq]
    cases e.fault? with
    | some f => exact .inr (.inr ⟨by simp [Except.map], by simp, rfl⟩)
    | none =>
      by_cases ha : e.arc = a
      · exact .inl ⟨e, rfl, ha, rfl, by rw [Graph.standing_put, if_pos ha.symm]⟩
      · refine .inr (.inr ⟨?_, by simp, by rw [Graph.standing_put, if_neg (Ne.symm ha)]⟩)
        rintro _ ⟨⟩ -
        exact ha
  | revoke b =>
    have hstep : c.step (.revoke b) = ((c.graph.revoke b c.now).1.map .edge,
      { c with graph := (c.graph.revoke b c.now).2 }) := rfl
    rw [hstep]
    rcases c.graph.revoke_cases b c.now with ⟨f, hf⟩ | ⟨e, hok, he, hlt, hafter⟩
    · rw [hf]
      exact .inr (.inr ⟨by simp, by simp [Except.map], rfl⟩)
    · rw [hok]
      by_cases ha : a = b
      · subst ha
        exact .inr (.inl ⟨e, rfl, ⟨_, rfl⟩, he, hlt, by rw [hafter, if_pos rfl]⟩)
      · refine .inr (.inr ⟨by simp, ?_, by rw [hafter, if_neg ha]⟩)
        rintro ⟨⟩
        exact absurd rfl ha
  | verify proof s r => exact .inr (.inr ⟨by simp, by simp, Graph.standing_verify _ _ _ _ _ _ a⟩)
  | slash target reason evidence =>
    obtain ⟨n, hn⟩ := slash_snd c target reason evidence
    refine .inr (.inr ⟨by simp, by simp, ?_⟩)
    change (c.slash target reason evidence).2.graph.standing a = _
    rw [hn]
  | _ => exact .inr (.inr ⟨by simp, by simp, rfl⟩)

end Context

/-! ## The clock -/

namespace Clock

variable {k : Clock}

theorem mode_observe (k : Clock) (t : Instant) : (k.observe t).mode = k.mode := by
  cases k <;> rfl

theorem isGreatest_observe (hlogical : k.mode = .logical) {times : Set Instant}
    (h : IsGreatest times k.now) (t : Instant) :
    IsGreatest (insert t times) (k.observe t).now := by
  cases k with
  | system reading => cases hlogical
  | logical highWater =>
    obtain ⟨hmem, hle⟩ := h
    change IsGreatest _ (if highWater < t then t else highWater)
    split_ifs with hlt
    · refine ⟨.inl rfl, ?_⟩
      rintro u (rfl | hu)
      · exact UInt64.le_refl u
      · exact UInt64.le_trans (hle hu) (UInt64.le_of_lt hlt)
    · refine ⟨.inr hmem, ?_⟩
      rintro u (rfl | hu)
      · exact UInt64.not_lt.mp hlt
      · exact hle hu

end Clock

/-- The time that an operation tells a logical clock, by its answer. -/
def Operation.tells : Operation α → Except (Fault α) (Reply α) → Option Instant
  | .add e, .ok _ => some e.timestamp
  | .advance t, _ => some t
  | _, _ => none

namespace Context

variable (c : Context α) (op : Operation α)

/-- **What a step does to a logical clock.** -/
theorem step_clock (hlogical : c.clock.mode = .logical) :
    (c.step op).2.clock = (op.tells (c.step op).1).elim c.clock c.clock.observe := by
  cases op with
  | add e =>
    have hstep : c.step (.add e) = ((c.addEdge e).1.map fun _ => .done, (c.addEdge e).2) := rfl
    rw [hstep, addEdge_eq]
    cases e.fault? <;> rfl
  | slash target reason evidence =>
    obtain ⟨n, hn⟩ := slash_snd c target reason evidence
    change (c.slash target reason evidence).2.clock = c.clock
    rw [hn]
  | tick reading =>
    cases hc : c.clock with
    | logical highWater => simp [step, hc, Clock.refresh, Operation.tells]
    | system reading =>
      rw [hc] at hlogical
      cases hlogical
  | _ => rfl

/-- The clock was told of a time in a history. -/
def Told (ops : List (Operation α)) (t : Instant) : Prop :=
  ∃ i op reply, c.Answered ops i op reply ∧ op.tells reply = some t

variable {c op} {ops : List (Operation α)} {t : Instant}

theorem told_concat_iff : c.Told (ops ++ [op]) t ↔
    c.Told ops t ∨ op.tells ((c.run ops).2.step op).1 = some t := by
  constructor
  · rintro ⟨i, o, reply, h, ht⟩
    rcases answered_concat_iff.mp h with h | ⟨-, rfl, rfl⟩
    · exact .inl ⟨i, o, reply, h, ht⟩
    · exact .inr ht
  · rintro (⟨i, o, reply, h, ht⟩ | ht)
    · exact ⟨i, o, reply, answered_concat_iff.mpr (.inl h), ht⟩
    · exact ⟨_, _, _, answered_concat_iff.mpr (.inr ⟨rfl, rfl, rfl⟩), ht⟩

end Context

end WebOfTrust
