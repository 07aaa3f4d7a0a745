import Mathlib
import WebOfTrust.Proofs.Context.Steps
import WebOfTrust.Proofs.Graph.Changes
import WebOfTrust.Proofs.Registry.Inverse

/-!
# Contexts that are reached

What holds of a new context and is kept by every operation holds of every context that a history
leads to.

* `Context.Reached`: the contexts that histories lead to; `Reached.run`;
* `step_registry`: what a step does to the registry; `exists_after_step`, `exists_after_run`: steps
  and histories make changes to the graph;
* **`Reached.graph_built`**, **`Reached.registry_consistent`**: the graph was built by its changes,
  and the tables of the registry are inverse to each other.
-/

namespace WebOfTrust

variable {α : Type} [Arith α]

namespace Graph

theorem spendAll_eq_after (g : Graph α) (hops : List Hop) :
    g.spendAll hops = g.after (hops.map fun h => .spend h.arc h.nonce) := by
  rw [spendAll, after, List.foldl_map]
  rfl

theorem exists_after_verify (g : Graph α) (registry : Registry) (maxHops : ℕ) (bytes : Bytes)
    (sender receiver : Identity) (now : Instant) :
    ∃ changes, (g.verify registry maxHops bytes sender receiver now).2 = g.after changes := by
  unfold Graph.verify
  cases g.check registry maxHops bytes sender receiver now with
  | ok p => exact ⟨_, spendAll_eq_after g p.hops⟩
  | error v => exact ⟨[], rfl⟩

end Graph

namespace Context

variable [Logarithm α] {c : Context α}

/-- The contexts that histories lead to from a new one. -/
inductive Reached : Context α → Prop
  | start (prefer : Identity → NodeId) (config : Config α) (reading : Instant) :
    Reached (ofConfig prefer config reading)
  | step {c : Context α} (hc : Reached c) (op : Operation α) : Reached (c.step op).2

theorem Reached.run (hc : c.Reached) (ops : List (Operation α)) : (c.run ops).2.Reached := by
  induction ops generalizing c with
  | nil => exact hc
  | cons op ops ih => exact ih (hc.step op)

theorem step_registry (c : Context α) (op : Operation α) :
    (c.step op).2.registry = c.registry ∨ ∃ i, (c.step op).2.registry =
      (c.registry.resolve c.prefer i : Except (Fault α) NodeId × Registry).2 := by
  cases op with
  | register bytes =>
    change (c.registry.resolveBytes c.prefer bytes :
      Except (Fault α) NodeId × Registry).2 = _ ∨ ∃ i, (c.registry.resolveBytes
        c.prefer bytes : Except (Fault α) NodeId × Registry).2 = _
    unfold Registry.resolveBytes
    cases Identity.ofBytes? bytes with
    | none => exact .inl rfl
    | some i => exact .inr ⟨i, rfl⟩
  | registerIdentity i => exact .inr ⟨i, rfl⟩
  | add e =>
    refine .inl ?_
    change (c.addEdge e).2.registry = c.registry
    unfold addEdge
    split <;> rfl
  | slash target reason evidence =>
    obtain ⟨n, hn⟩ := slash_snd c target reason evidence
    refine .inl ?_
    change (c.slash target reason evidence).2.registry = c.registry
    rw [hn]
  | _ => exact .inl rfl

theorem exists_after_step (c : Context α) (op : Operation α) :
    ∃ changes, (c.step op).2.graph = c.graph.after changes := by
  rcases c.step_graph op with ⟨e, -, hg⟩ | ⟨a, -, hg⟩ | ⟨proof, s, r, -, hg⟩ | ⟨-, hg⟩
  all_goals rw [hg]
  · exact ⟨[.add e], rfl⟩
  · exact ⟨[.revoke a c.now], rfl⟩
  · exact c.graph.exists_after_verify _ _ _ _ _ _
  · exact ⟨[], rfl⟩

/-- **A history makes changes to the graph.** -/
theorem exists_after_run (c : Context α) (ops : List (Operation α)) :
    ∃ changes, (c.run ops).2.graph = c.graph.after changes := by
  induction ops generalizing c with
  | nil => exact ⟨[], rfl⟩
  | cons op rest ih =>
    obtain ⟨first, hfirst⟩ := c.exists_after_step op
    obtain ⟨others, hothers⟩ := ih (c.step op).2
    refine ⟨first ++ others, hothers.trans ?_⟩
    rw [hfirst, Graph.after_append]

/-- **The graph of a context was built by its changes.** -/
theorem Reached.graph_built (hc : c.Reached) : c.graph.Built := by
  induction hc with
  | start prefer config reading => exact .empty
  | @step c _ op ih =>
    obtain ⟨changes, hg⟩ := c.exists_after_step op
    rw [hg]
    exact ih.after changes

/-- **The tables of its registry are inverse to each other.** -/
theorem Reached.registry_consistent (hc : c.Reached) : c.registry.Consistent := by
  induction hc with
  | start prefer config reading => exact Registry.consistent_empty
  | @step c _ op ih =>
    rcases c.step_registry op with hr | ⟨i, hr⟩
    all_goals rw [hr]
    · exact ih
    · exact ih.resolve c.prefer i

end Context

end WebOfTrust
