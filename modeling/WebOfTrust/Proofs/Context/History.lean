import Mathlib
import WebOfTrust.Proofs.Context.Events
import WebOfTrust.Proofs.Context.Replay

/-!
# Histories

What is known of a context with a logical clock is what its history tells.

* `Context.StandsSince`: an edge put at some place of a history and not replaced since, and when it
  was revoked; **`run_standing`**, `run_record`: it is the edge of its pair;
* `Context.AcceptedAt`: hops of the proofs found valid; **`spent_iff_acceptedAt`**: they are what
  was spent;
* **`isGreatest_now`**: the clock shows the latest of the times that it was told of;
* **`graph_is_history`**: edges, revocations, spent nonces and the clock, by the history.
-/

namespace WebOfTrust

variable {α : Type}

namespace Context

variable [Arith α] [Logarithm α] {c : Context α} {ops : List (Operation α)} {op : Operation α}
  {a : Arc} {e : Edge α} {m : Option Instant} {i : ℕ}

/-! ## Edges -/

/-- An edge was put on a pair at some place of a history, no other was put there later, and it was
revoked since at the given time, if at all, before it ended. -/
structure StandsSince (c : Context α) (ops : List (Operation α)) (a : Arc) (i : ℕ) (e : Edge α)
    (m : Option Instant) : Prop where
  put : c.PutAt ops i e
  arc : e.arc = a
  last : ∀ j e', i < j → c.PutAt ops j e' → e'.arc ≠ a
  revoked : ∀ t, m = some t ↔ ∃ j, i < j ∧ c.RevokedAt ops j a t
  unended : ∀ t, m = some t → t < e.expiration

theorem StandsSince.of_put (hok : ((c.run ops).2.step (.add e)).1 = .ok .done) (ha : e.arc = a) :
    c.StandsSince (ops ++ [.add e]) a ops.length e none where
  put := putAt_concat_iff.mpr (.inr ⟨rfl, rfl, hok⟩)
  arc := ha
  last j e' hj hput := by
    rcases putAt_concat_iff.mp hput with h | ⟨rfl, -⟩
    · exact absurd h.lt hj.not_gt
    · exact absurd hj (lt_irrefl _)
  revoked t := by
    constructor
    · rintro ⟨⟩
    · rintro ⟨j, hj, hrev⟩
      rcases revokedAt_concat_iff.mp hrev with ⟨⟨_, h⟩, -⟩ | ⟨-, hop, -⟩
      · exact absurd h.lt hj.not_gt
      · cases hop
  unended := by rintro t ⟨⟩

theorem StandsSince.revoke (h : c.StandsSince ops a i e none)
    (hok : ∃ reply, ((c.run ops).2.step (.revoke a)).1 = .ok reply)
    (hlt : (c.run ops).2.now < e.expiration) :
    c.StandsSince (ops ++ [.revoke a]) a i e (some (c.run ops).2.now) where
  put := putAt_concat_iff.mpr (.inl h.put)
  arc := h.arc
  last j e' hj hput := by
    rcases putAt_concat_iff.mp hput with hput | ⟨-, hop, -⟩
    · exact h.last j e' hj hput
    · cases hop
  revoked t := by
    constructor
    · rintro ⟨⟩
      exact ⟨ops.length, h.put.lt, revokedAt_concat_iff.mpr (.inr ⟨rfl, rfl, hok, rfl⟩)⟩
    · rintro ⟨j, hj, hrev⟩
      rcases revokedAt_concat_iff.mp hrev with hrev | ⟨-, -, -, ht⟩
      · cases (h.revoked t).mpr ⟨j, hj, hrev⟩
      · rw [ht]
  unended := by
    rintro t ⟨⟩
    exact hlt

theorem StandsSince.concat (h : c.StandsSince ops a i e m)
    (hadd : ∀ e', op = .add e' → ((c.run ops).2.step op).1 = .ok .done → e'.arc ≠ a)
    (hrevoke : op = .revoke a → ∀ reply, ((c.run ops).2.step op).1 ≠ .ok reply) :
    c.StandsSince (ops ++ [op]) a i e m where
  put := putAt_concat_iff.mpr (.inl h.put)
  arc := h.arc
  last j e' hj hput := by
    rcases putAt_concat_iff.mp hput with hput | ⟨-, hop, hok⟩
    · exact h.last j e' hj hput
    · exact hadd e' hop hok
  revoked t := by
    rw [h.revoked t]
    refine exists_congr fun j => and_congr_right fun _ => ?_
    rw [revokedAt_concat_iff]
    refine (or_iff_left ?_).symm
    rintro ⟨-, hop, ⟨reply, hok⟩, -⟩
    exact hrevoke hop reply hok
  unended := h.unended

/-- **The edge of a pair is the last one put there**, and a pair without one has had none. -/
theorem run_standing (ha : c.graph.standing a = none) (ops : List (Operation α)) :
    ((c.run ops).2.graph.standing a = none ∧ ∀ i e, c.PutAt ops i e → e.arc ≠ a) ∨
    ∃ e m, (c.run ops).2.graph.standing a = some (e, m) ∧ ∃ i, c.StandsSince ops a i e m := by
  -- By the last operation: what stands after it is what it leaves of what stood before.
  induction ops using List.reverseRecOn with
  | nil =>
    refine .inl ⟨ha, ?_⟩
    rintro i e ⟨h, -⟩
    simp at h
  | append_singleton ops op ih =>
    rw [run_concat_snd]
    rcases (c.run ops).2.step_standing op a with ⟨e, rfl, harc, hok, hafter⟩ |
      ⟨e, rfl, hok, hbefore, hlt, hafter⟩ | ⟨hadd, hrevoke, hafter⟩
    · exact .inr ⟨e, none, hafter, ops.length, .of_put hok harc⟩
    · -- What is revoked is the edge that stood there before.
      rcases ih with ⟨hnone, -⟩ | ⟨_, _, hsome, i, hi⟩
      · cases hnone.symm.trans hbefore
      · cases hsome.symm.trans hbefore
        exact .inr ⟨e, _, hafter, i, hi.revoke hok hlt⟩
    · rw [hafter]
      rcases ih with ⟨hnone, hput⟩ | ⟨e, m, hsome, i, hi⟩
      · refine .inl ⟨hnone, fun i e h => ?_⟩
        rcases putAt_concat_iff.mp h with h | ⟨-, hop, hok⟩
        · exact hput i e h
        · exact hadd e hop hok
      · exact .inr ⟨e, m, hsome, i, hi.concat hadd hrevoke⟩

theorem run_record (ha : c.graph.record? a = none) (ops : List (Operation α)) :
    ((c.run ops).2.graph.record? a = none ∧ ∀ i e, c.PutAt ops i e → e.arc ≠ a) ∨
    ∃ r, (c.run ops).2.graph.record? a = some r ∧
      ∃ i, c.StandsSince ops a i r.edge r.revokedAt := by
  have hstanding : c.graph.standing a = none := by rw [Graph.standing, ha, Option.map_none]
  rcases run_standing hstanding ops with ⟨hnone, hput⟩ | ⟨e, m, hsome, hi⟩
  · exact .inl ⟨Option.map_eq_none_iff.mp hnone, hput⟩
  · obtain ⟨r, hr, hrm⟩ := Option.map_eq_some_iff.mp hsome
    cases hrm
    exact .inr ⟨r, hr, hi⟩

/-! ## Spent nonces -/

/-- A hop belongs to a proof that was found valid at some place of a history. -/
def AcceptedAt (c : Context α) (ops : List (Operation α)) (i : ℕ) (h : Hop) : Prop :=
  ∃ proof sender receiver p,
    c.Answered ops i (.verify proof sender receiver) (.ok (.verdict .valid)) ∧
    PathProof.decode c.config.proof.maxHops.toNat proof = .ok p ∧ h ∈ p.hops

end Context

theorem Operation.mem_spends_iff {maxHops : ℕ} {op : Operation α}
    {reply : Except (Fault α) (Reply α)} {h : Hop} : h ∈ op.spends maxHops reply ↔
      ∃ proof sender receiver p, op = .verify proof sender receiver ∧
        reply = .ok (.verdict .valid) ∧ PathProof.decode maxHops proof = .ok p ∧ h ∈ p.hops := by
  unfold spends
  split
  next proof s r =>
    cases hd : PathProof.decode maxHops proof with
    | ok p => simp [hd]
    | error v => simp [hd]
  next hop =>
    refine ⟨by simp, ?_⟩
    rintro ⟨proof, s, r, p, rfl, rfl, -⟩
    exact absurd rfl (hop proof s r rfl)

namespace Context

variable [Arith α] [Logarithm α] {c : Context α} {ops : List (Operation α)}

theorem mem_spends_iff {h : Hop} : h ∈ c.spends ops ↔ ∃ i, c.AcceptedAt ops i h := by
  constructor
  · intro hh
    obtain ⟨hops, hhops, hh⟩ := List.mem_flatten.mp hh
    obtain ⟨i, hi⟩ := List.getElem?_of_mem hhops
    obtain ⟨op, reply, hop, hreply, rfl⟩ := List.getElem?_zipWith_eq_some.mp hi
    obtain ⟨proof, s, r, p, rfl, rfl, hd, hp⟩ := Operation.mem_spends_iff.mp hh
    exact ⟨i, proof, s, r, p, ⟨hop, hreply⟩, hd, hp⟩
  · rintro ⟨i, proof, s, r, p, ⟨hop, hreply⟩, hd, hp⟩
    exact c.mem_spends hop hreply
      (Operation.mem_spends_iff.mpr ⟨proof, s, r, p, rfl, rfl, hd, hp⟩)

/-- **What was spent is what accepted proofs have spent.** -/
theorem spent_iff_acceptedAt {a : Arc} {nonce : UInt64} (hnone : ¬ c.graph.Spent a nonce) :
    (c.run ops).2.graph.Spent a nonce ↔ ∃ i, c.AcceptedAt ops i (a.hop nonce) := by
  rw [← mem_spends_iff]
  exact ((c.run_spends ops).2.2 (a.hop nonce)).trans (or_iff_right hnone)

/-! ## The clock -/

/-- **A logical clock shows the latest of the times that it was told of.** -/
theorem isGreatest_now (hlogical : c.clock.mode = .logical) (ops : List (Operation α)) :
    (c.run ops).2.clock.mode = .logical ∧
      IsGreatest {t | t = c.now ∨ c.Told ops t} (c.run ops).2.now := by
  induction ops using List.reverseRecOn with
  | nil =>
    refine ⟨hlogical, .inl rfl, ?_⟩
    rintro t (rfl | ⟨_, _, _, ⟨h, -⟩, -⟩)
    · exact UInt64.le_refl _
    · simp at h
  | append_singleton ops op ih =>
    obtain ⟨hmode, hgreatest⟩ := ih
    have hclock := (c.run ops).2.step_clock op hmode
    have hnow := congrArg Clock.now hclock
    rw [← now] at hnow
    rw [run_concat_snd, hclock, hnow]
    simp only [told_concat_iff]
    cases op.tells ((c.run ops).2.step op).1 with
    | none => exact ⟨hmode, by simpa [now] using hgreatest⟩
    | some u =>
      have htimes : {t | t = c.now ∨ c.Told ops t ∨ some u = some t} =
          insert u {t | t = c.now ∨ c.Told ops t} := by
        ext t
        simp only [Option.some.injEq, Set.mem_ofPred_eq, Set.mem_insert_iff]
        tauto
      rw [htimes]
      exact ⟨(Clock.mode_observe _ u).trans hmode, Clock.isGreatest_observe hmode hgreatest u⟩

/-! ## The whole state -/

/-- **A context with a logical clock is what its history tells**, whatever failed in between. -/
theorem graph_is_history (prefer : Identity → NodeId) (config : Config α) (reading : Instant)
    (hclock : config.clock = .logical) (ops : List (Operation α)) :
    let start := ofConfig prefer config reading
    let after := (start.run ops).2
    (∀ a, (after.graph.record? a).isSome ↔ ∃ i e, start.PutAt ops i e ∧ e.arc = a) ∧
    (∀ a r, after.graph.record? a = some r →
      ∃ i, start.StandsSince ops a i r.edge r.revokedAt) ∧
    (∀ a nonce, after.graph.Spent a nonce ↔ ∃ i, start.AcceptedAt ops i (a.hop nonce)) ∧
    IsGreatest {t | t = 0 ∨ start.Told ops t} after.now ∧
    ∀ a r, after.graph.record? a = some r → r.edge.timestamp ≤ after.now := by
  intro start after
  have hzero : start.clock = .logical 0 := by
    change Clock.start config.clock reading = _
    rw [hclock]
    rfl
  have hrecord : ∀ a r, after.graph.record? a = some r →
      ∃ i, start.StandsSince ops a i r.edge r.revokedAt := by
    intro a r hr
    rcases run_record (c := start) (a := a) rfl ops with ⟨hnone, -⟩ | ⟨_, hr', hi⟩
    · cases hnone.symm.trans hr
    · cases hr'.symm.trans hr
      exact hi
  have hnow := (isGreatest_now (c := start) (by rw [hzero]; rfl) ops).2
  have hstart : start.now = 0 := by rw [now, hzero]; rfl
  rw [hstart] at hnow
  refine ⟨fun a => ⟨?_, ?_⟩, hrecord, fun a nonce => spent_iff_acceptedAt ?_, hnow, ?_⟩
  · intro hsome
    obtain ⟨r, hr⟩ := Option.isSome_iff_exists.mp hsome
    obtain ⟨i, hi⟩ := hrecord a r hr
    exact ⟨i, r.edge, hi.put, hi.arc⟩
  · rintro ⟨i, e, hput, harc⟩
    rcases run_record (c := start) (a := a) rfl ops with ⟨-, hnot⟩ | ⟨r, hr, -⟩
    · exact absurd harc (hnot i e hput)
    · rw [hr]
      rfl
  · rintro ⟨r, hr, -⟩
    cases hr
  · intro a r hr
    obtain ⟨i, hi⟩ := hrecord a r hr
    exact hnow.2 (.inr ⟨i, _, _, hi.put, rfl⟩)

/-- The edge stands again, its spent nonce stays spent, and the clock shows the time it was told. -/
theorem graph_is_history_revival :
    let start := ofConfig Identity.preferred (Config.default : Config Float) 0
    start.config.clock = .logical ∧
    (∃ r i, (start.run revival).2.graph.record? ⟨3246643754, 2416186773⟩ = some r ∧
      r.edge.timestamp = 6 ∧ r.revokedAt = none ∧
      start.StandsSince revival ⟨3246643754, 2416186773⟩ i r.edge none) ∧
    (∃ i, start.AcceptedAt revival i ⟨3246643754, 2416186773, 7⟩) ∧
    IsGreatest {t | t = 0 ∨ start.Told revival t} 9 := by
  dsimp only
  have hclock : (Config.default : Config Float).clock = .logical := rfl
  obtain ⟨-, hrecord, hspent, hnow, -⟩ :=
    graph_is_history Identity.preferred Config.default 0 hclock revival
  have hafter : (((ofConfig Identity.preferred Config.default 0).run revival).2.graph.record?
      ⟨3246643754, 2416186773⟩).any (fun r => decide (r.edge.timestamp = 6) &&
        decide (r.revokedAt = none) && r.isSpent 7) = true := by decide +kernel
  have htime : ((ofConfig Identity.preferred Config.default 0).run revival).2.now = 9 := by
    decide +kernel
  cases hr : ((ofConfig Identity.preferred Config.default 0).run revival).2.graph.record?
      ⟨3246643754, 2416186773⟩ with
  | none =>
    rw [hr] at hafter
    cases hafter
  | some r =>
    rw [hr, Option.any_some, Bool.and_eq_true, Bool.and_eq_true, decide_eq_true_eq,
      decide_eq_true_eq] at hafter
    obtain ⟨⟨hsix, hnone⟩, hseven⟩ := hafter
    obtain ⟨i, hi⟩ := hrecord _ r hr
    rw [hnone] at hi
    rw [htime] at hnow
    exact ⟨hclock, ⟨r, i, rfl, hsix, hnone, hi⟩, (hspent _ 7).mp ⟨r, hr, hseven⟩, hnow⟩

end Context

end WebOfTrust
