import WebOfTrust.Proofs.Context.Steps

/-!
# Replay

A nonce that was spent on a pair of nodes stays spent, whatever becomes of the edge in between, so
no hop is accepted twice over a whole history.

* `spends`: the hops of the proofs that a history has verified as valid;
* `step_spends`, `run_spends`: these hops were not spent before, and are after;
* **`replay_safe`**: no hop occurs twice among them, and no accepted proof is accepted again.
-/

namespace WebOfTrust

variable {α : Type}

/-- The hops whose nonces an operation has spent, by its answer. -/
def Operation.spends (maxHops : ℕ) : Operation α → Except (Fault α) (Reply α) → List Hop
  | .verify proof _ _, .ok (.verdict .valid) =>
    match PathProof.decode maxHops proof with
    | .ok p => p.hops
    | .error _ => []
  | _, _ => []

namespace Context

variable [Arith α] [Logarithm α] (c : Context α)

/-- The hops of the proofs that a history has verified as valid, one proof after the other. -/
def spends (ops : List (Operation α)) : List Hop :=
  (List.zipWith (Operation.spends c.config.proof.maxHops.toNat) ops (c.run ops).1).flatten

theorem spends_cons (op : Operation α) (ops : List (Operation α)) :
    c.spends (op :: ops) = op.spends c.config.proof.maxHops.toNat (c.step op).1 ++
      (c.step op).2.spends ops := by
  rw [spends, spends, step_config]
  rfl

omit [Arith α] [Logarithm α] in
theorem evaluate_eq_valid_iff {proof : Bytes} {sender receiver : Identity} :
    c.evaluate proof sender receiver = .valid ↔ ∃ p,
      c.graph.check c.registry c.config.proof.maxHops.toNat proof sender receiver c.now = .ok p :=
  Graph.evaluate_eq_valid_iff

/-- **A step spends hops that were not spent**, each once, and keeps what was spent. -/
theorem step_spends (op : Operation α) :
    (op.spends c.config.proof.maxHops.toNat (c.step op).1).Nodup ∧
    (∀ h ∈ op.spends c.config.proof.maxHops.toNat (c.step op).1,
      ¬ c.graph.Spent h.arc h.nonce) ∧
    ∀ k : Hop, (c.step op).2.graph.Spent k.arc k.nonce ↔ c.graph.Spent k.arc k.nonce ∨
      k ∈ op.spends c.config.proof.maxHops.toNat (c.step op).1 := by
  rcases c.step_graph op with ⟨e, rfl, hg⟩ | ⟨a, rfl, hg⟩ | ⟨proof, s, r, rfl, hg⟩ | ⟨hop, hg⟩
  · refine ⟨List.nodup_nil, by simp [Operation.spends], fun k => ?_⟩
    rw [hg, Graph.spent_add]
    simp [Operation.spends]
  · refine ⟨List.nodup_nil, by simp [Operation.spends], fun k => ?_⟩
    rw [hg, Graph.spent_revoke]
    simp [Operation.spends]
  · rw [step_verify_fst, hg]
    by_cases hvalid : c.evaluate proof s r = .valid
    · obtain ⟨p, hp⟩ := c.evaluate_eq_valid_iff.mp hvalid
      obtain ⟨hd, -, -, hnd, hall⟩ := Graph.check_eq_ok_iff.mp hp
      simp only [hvalid, Operation.spends, hd, Graph.verify_snd hp]
      refine ⟨hnd, fun h hh => (hall h hh).not_spent, fun k => Graph.spent_spendAll ?_ k⟩
      intro h hh
      obtain ⟨r, hr, -⟩ := hall h hh
      rw [hr]
      rfl
    · have hsp : Operation.spends c.config.proof.maxHops.toNat (.verify proof s r)
          (.ok (.verdict (α := α) (c.evaluate proof s r))) = [] := by
        unfold Operation.spends
        split
        next heq => exact absurd (by simpa using heq) hvalid
        next => rfl
      rw [hsp, Graph.verify_snd_of_ne_valid hvalid]
      simp
  · have hsp : op.spends c.config.proof.maxHops.toNat (c.step op).1 = [] := by
      unfold Operation.spends
      split
      next => exact absurd rfl (hop _ _ _)
      next => rfl
    rw [hsp, hg]
    simp

/-- **A run spends hops that were not spent**, each once, and keeps what was spent. -/
theorem run_spends (ops : List (Operation α)) :
    (c.spends ops).Nodup ∧ (∀ h ∈ c.spends ops, ¬ c.graph.Spent h.arc h.nonce) ∧
    ∀ k : Hop, (c.run ops).2.graph.Spent k.arc k.nonce ↔
      c.graph.Spent k.arc k.nonce ∨ k ∈ c.spends ops := by
  induction ops generalizing c with
  | nil => simp [spends, run]
  | cons op ops ih =>
    obtain ⟨hnd, hnew, hspent⟩ := c.step_spends op
    obtain ⟨hnd', hnew', hspent'⟩ := ih (c.step op).2
    rw [spends_cons]
    refine ⟨List.nodup_append.mpr ⟨hnd, hnd', ?_⟩, ?_, fun k => ?_⟩
    · rintro h hh _ hh' rfl
      exact hnew' h hh' ((hspent h).mpr (.inr hh))
    · intro h hh
      rcases List.mem_append.mp hh with hh | hh
      · exact hnew h hh
      · exact fun hs => hnew' h hh ((hspent h).mpr (.inl hs))
    · rw [List.mem_append, ← or_assoc, ← hspent k]
      exact hspent' k

theorem mem_spends {ops : List (Operation α)} {i : ℕ} {op : Operation α}
    {reply : Except (Fault α) (Reply α)} (hop : ops[i]? = some op)
    (hreply : (c.run ops).1[i]? = some reply) {h : Hop}
    (hh : h ∈ op.spends c.config.proof.maxHops.toNat reply) : h ∈ c.spends ops := by
  refine List.mem_flatten.mpr ⟨_, List.mem_of_getElem? (i := i) ?_, hh⟩
  rw [List.getElem?_zipWith, hop, hreply]

omit [Arith α] [Logarithm α] in
/-- A proof is accepted only if none of its hops has been spent. -/
theorem not_spent_of_evaluate {proof : Bytes} {sender receiver : Identity} {p : PathProof}
    (hd : PathProof.decode c.config.proof.maxHops.toNat proof = .ok p)
    (hv : c.evaluate proof sender receiver = .valid) :
    ∀ h ∈ p.hops, ¬ c.graph.Spent h.arc h.nonce := by
  obtain ⟨q, hq⟩ := c.evaluate_eq_valid_iff.mp hv
  obtain ⟨hd', -, -, -, hall⟩ := Graph.check_eq_ok_iff.mp hq
  cases hd.symm.trans hd'
  exact fun h hh => (hall h hh).not_spent

/-- **No hop is accepted twice**, and a proof verified as valid is never found valid again. -/
theorem replay_safe (prefer : Identity → NodeId) (config : Config α) (reading : Instant)
    (ops : List (Operation α)) :
    let start := ofConfig prefer config reading
    (start.spends ops).Nodup ∧
    ∀ (i j : ℕ) (proof : Bytes) (s r s' r' : Identity), i < j →
      ops[i]? = some (.verify proof s r) →
      (start.run ops).1[i]? = some (.ok (.verdict .valid)) →
      (ops[j]? = some (.verify proof s' r') ∨ ops[j]? = some (.evaluate proof s' r')) →
      (start.run ops).1[j]? ≠ some (.ok (.verdict .valid)) := by
  intro start
  refine ⟨(start.run_spends ops).1, ?_⟩
  intro i j proof s r s' r' hij hi hvi hj hvj
  generalize start = c at hvi hvj
  -- The first verification finds a proof with a hop.
  have hbi : (c.run (ops.take i)).2.evaluate proof s r = .valid := by
    rw [run_getElem? c hi, step_verify_fst] at hvi
    simpa using hvi
  obtain ⟨p, hp⟩ := (evaluate_eq_valid_iff _).mp hbi
  have hdec := (Graph.check_eq_ok_iff.mp hp).1
  rw [run_snd_config] at hdec
  obtain ⟨h, hh⟩ := List.exists_mem_of_ne_nil _ (PathProof.decode_hops_ne_nil hdec)
  -- That hop is spent when the proof comes again.
  have hmem : h ∈ c.spends (ops.take j) := by
    have hop : (ops.take j)[i]? = some (.verify proof s r) := by
      rw [List.getElem?_take_of_lt hij, hi]
    refine c.mem_spends hop ((c.run_take_getElem? hij hi).trans hvi) ?_
    simpa only [Operation.spends, hdec] using hh
  have hspent := ((c.run_spends (ops.take j)).2.2 h).mpr (.inr hmem)
  have hbj : (c.run (ops.take j)).2.evaluate proof s' r' = .valid := by
    rcases hj with hj | hj
    · rw [run_getElem? c hj, step_verify_fst] at hvj
      simpa using hvj
    · rw [run_getElem? c hj] at hvj
      simpa [step] using hvj
  rw [← c.run_snd_config (ops.take j)] at hdec
  exact not_spent_of_evaluate _ hdec hbj h hh hspent

/-! ## A revived edge -/

section Revival

/-- The sender of the example. -/
def alice : Identity := ⟨⟨List.replicate 32 0, rfl⟩⟩

/-- The receiver of the example. -/
def bob : Identity := ⟨⟨List.replicate 32 1, rfl⟩⟩

/-- A proof of one hop between the nodes that the two prefer, with nonce 7. -/
def oneHop : Bytes :=
  1 :: alice.bytes ++ bob.bytes ++ [1, 0] ++ Hop.encode ⟨3246643754, 2416186773, 7⟩

/-- The proof is verified, its edge is revoked and comes back with a lower nonce, time goes by, and
the proof is shown again. -/
def revival : List (Operation Float) :=
  [.registerIdentity alice, .registerIdentity bob,
    .add ⟨3246643754, 2416186773, 1, 5, 3, 3, 100⟩, .verify oneHop alice bob,
    .revoke ⟨3246643754, 2416186773⟩, .add ⟨3246643754, 2416186773, 1, 6, 2, 3, 100⟩, .advance 9,
    .verify oneHop alice bob]

/-- A proof that was accepted is refused after its edge was revoked and put back. -/
theorem replay_safe_revival :
    let start := ofConfig Identity.preferred Config.default 0
    revival[3]? = some (.verify oneHop alice bob) ∧
    (start.run revival).1[3]? = some (.ok (.verdict .valid)) ∧
    revival[7]? = some (.verify oneHop alice bob) ∧
    (start.run revival).1[7]? ≠ some (.ok (.verdict .valid)) := by
  intro start
  have hvalid : (start.run (revival.take 3)).2.evaluate oneHop alice bob = .valid := by
    decide +kernel
  have hreply : (start.run revival).1[3]? = some (.ok (.verdict .valid)) := by
    have hop : revival[3]? = some (.verify oneHop alice bob) := rfl
    rw [run_getElem? _ hop, step_verify_fst, hvalid]
  have hlater := (replay_safe Identity.preferred Config.default 0 revival).2 3 7 oneHop alice bob
    alice bob (by decide) rfl hreply (.inl rfl)
  exact ⟨rfl, hreply, rfl, hlater⟩

end Revival

end Context

end WebOfTrust
