import Mathlib
import WebOfTrust.Proofs.PathProof.Findings

/-!
# The edge of a pair

Of what is known of a pair of nodes, the edge and the time of its revocation follow the last change
alone; the spent nonces are left aside.

* `Graph.standing`: the edge of a pair, and the time of its revocation;
* `standing_put`, `standing_verify`, **`revoke_cases`**: the edges of all pairs after a change.
-/

namespace WebOfTrust.Graph

variable {α : Type}

/-- The edge of a pair, and the time of its revocation. -/
def standing (g : Graph α) (a : Arc) : Option (Edge α × Option Instant) :=
  (g.record? a).map fun r => (r.edge, r.revokedAt)

variable {g g' : Graph α}

theorem standing_put (e : Edge α) (a : Arc) :
    (g.put e).standing a = if a = e.arc then some (e, none) else g.standing a := by
  unfold standing
  rw [record?_put]
  split_ifs <;> rfl

theorem SpentAlong.standing_eq {hops : List Hop} (h : g.SpentAlong g' hops) (a : Arc) :
    g'.standing a = g.standing a := by
  unfold standing
  cases hr : g.record? a with
  | none => rw [h.absent a hr]
  | some r =>
    obtain ⟨r', hr', he, ht, -⟩ := h.present a r hr
    rw [hr', Option.map_some, Option.map_some, he, ht]

theorem standing_verify (registry : Registry) (maxHops : ℕ) (bytes : Bytes)
    (sender receiver : Identity) (now : Instant) (a : Arc) :
    (g.verify registry maxHops bytes sender receiver now).2.standing a = g.standing a := by
  unfold verify
  cases g.check registry maxHops bytes sender receiver now with
  | ok p => exact (spentAlong_spendAll g p.hops).standing_eq a
  | error v => rfl

theorem revoke_cases (g : Graph α) (b : Arc) (now : Instant) :
    (∃ f, g.revoke b now = (.error f, g)) ∨
    ∃ e, (g.revoke b now).1 = .ok e ∧ g.standing b = some (e, none) ∧ now < e.expiration ∧
      ∀ a, (g.revoke b now).2.standing a = if a = b then some (e, some now) else g.standing a := by
  cases hr : g.record? b with
  | none => exact .inl ⟨_, by unfold revoke; rw [hr]⟩
  | some r =>
    by_cases hl : r.isLive now = true
    · have hlive : r.revokedAt = none ∧ now < r.edge.expiration := by
        simpa [Record.isLive, Record.isRevoked, Edge.isExpired] using hl
      refine .inr ⟨r.edge, by simp [revoke, hr, hl], by simp [standing, hr, hlive.1], hlive.2,
        fun a => ?_⟩
      rw [standing, record?_revoke]
      split_ifs with hab
      · rw [hr, Option.map_some, Record.revoke, if_pos hl]
        rfl
      · rfl
    · exact .inl ⟨_, by unfold revoke; rw [hr]; exact if_neg hl⟩

end WebOfTrust.Graph
