import Mathlib
import WebOfTrust.Context.Run
import WebOfTrust.Proofs.PathProof.Check

/-!
# Steps and runs of a context

What a single operation can do to the parts of a context, and how a run is made of its steps.

* `step_config`, `run_snd_config`: the settings stay;
* **`step_graph`**: the graph changes in three ways only;
* **`run_getElem?`**: the answer at a place of a history is that of a step;
* `run_take_getElem?`: it does not depend on what comes later.
-/

namespace WebOfTrust.Context

variable {α : Type} [Arith α] [Logarithm α] (c : Context α)

/-! ## Steps -/

omit [Logarithm α] in
theorem addEdge_graph (e : Edge α) : (c.addEdge e).2.graph = (c.graph.add e).2 := by
  unfold addEdge
  split <;> next h => rw [h]

omit [Logarithm α] in
theorem addEdge_config (e : Edge α) : (c.addEdge e).2.config = c.config := by
  unfold addEdge
  split <;> rfl

theorem slash_snd (target : Bytes) (reason : UInt8) (evidence : Octets 32) :
    ∃ n, (c.slash target reason evidence).2 = { c with slashNonce := n } := by
  unfold slash
  split
  · exact ⟨c.slashNonce, rfl⟩
  · split
    · exact ⟨c.slashNonce, rfl⟩
    · split
      · exact ⟨c.slashNonce, rfl⟩
      · exact ⟨c.slashNonce + 1, rfl⟩

theorem step_config (op : Operation α) : (c.step op).2.config = c.config := by
  cases op with
  | add e => exact addEdge_config c e
  | slash target reason evidence =>
    obtain ⟨n, hn⟩ := slash_snd c target reason evidence
    change (c.slash target reason evidence).2.config = c.config
    rw [hn]
  | _ => rfl

theorem step_verify_fst (proof : Bytes) (sender receiver : Identity) :
    (c.step (.verify proof sender receiver)).1 =
      .ok (.verdict (c.evaluate proof sender receiver)) := by
  simp only [step, verify, evaluate, Graph.verify_fst]

/-- **What a step does to the graph**: put an edge, revoke one, verify a proof, or nothing. -/
theorem step_graph (op : Operation α) :
    (∃ e, op = .add e ∧ (c.step op).2.graph = (c.graph.add e).2) ∨
    (∃ a, op = .revoke a ∧ (c.step op).2.graph = (c.graph.revoke a c.now).2) ∨
    (∃ proof sender receiver, op = .verify proof sender receiver ∧ (c.step op).2.graph =
      (c.graph.verify c.registry c.config.proof.maxHops.toNat proof sender receiver c.now).2) ∨
    (∀ proof sender receiver, op ≠ .verify proof sender receiver) ∧
      (c.step op).2.graph = c.graph := by
  cases op with
  | add e => exact .inl ⟨e, rfl, addEdge_graph c e⟩
  | revoke a => exact .inr (.inl ⟨a, rfl, rfl⟩)
  | verify proof sender receiver => exact .inr (.inr (.inl ⟨proof, sender, receiver, rfl, rfl⟩))
  | slash target reason evidence =>
    obtain ⟨n, hn⟩ := slash_snd c target reason evidence
    refine .inr (.inr (.inr ⟨by simp, ?_⟩))
    change (c.slash target reason evidence).2.graph = c.graph
    rw [hn]
  | _ => exact .inr (.inr (.inr ⟨by simp, rfl⟩))

/-! ## Runs -/

theorem run_snd_config (ops : List (Operation α)) : (c.run ops).2.config = c.config := by
  induction ops generalizing c with
  | nil => rfl
  | cons op ops ih => exact (ih _).trans (step_config c op)

/-- **The answer at a place of a history** is that of a step from the context reached there. -/
theorem run_getElem? {ops : List (Operation α)} {i : ℕ} {op : Operation α}
    (h : ops[i]? = some op) :
    (c.run ops).1[i]? = some ((c.run (ops.take i)).2.step op).1 := by
  induction ops generalizing c i with
  | nil => simp at h
  | cons head rest ih =>
    cases i with
    | zero =>
      rw [List.getElem?_cons_zero, Option.some.injEq] at h
      rw [h]
      rfl
    | succ i => exact ih (c.step head).2 h

theorem run_take_getElem? {ops : List (Operation α)} {i j : ℕ} {op : Operation α} (hij : i < j)
    (h : ops[i]? = some op) : (c.run (ops.take j)).1[i]? = (c.run ops).1[i]? := by
  have htake : (ops.take j)[i]? = some op := by rw [List.getElem?_take_of_lt hij, h]
  rw [run_getElem? c htake, run_getElem? c h, List.take_take, min_eq_left hij.le]

end WebOfTrust.Context
