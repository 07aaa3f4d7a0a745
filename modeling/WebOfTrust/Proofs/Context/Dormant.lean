import Mathlib
import WebOfTrust.Proofs.Betrayal.Local
import WebOfTrust.Proofs.Context.History
import WebOfTrust.Proofs.Context.Reached

/-!
# Dormant pairs

A pair of nodes without a live edge stays so until an edge is put there: a revoked edge stays
revoked, and time does not go back. Until then no answer depends on the pair.

* `step_now_le`, `step_lookupEdge`: what a step keeps; **`run_lookupEdge`**: what a run keeps;
* `Context.Dormant`: a pair takes no part; `Reached.dormant`: it does so without a live edge;
* **`live_only_by_add`**: only putting an edge brings it to life.
-/

namespace WebOfTrust

variable {α : Type}

theorem Graph.lookup_eq_none_iff {g : Graph α} {a : Arc} {now : Instant} :
    g.lookup a now = none ↔ ∀ e, g.standing a = some (e, none) → e.expiration ≤ now := by
  unfold lookup standing
  cases g.record? a with
  | none => simp
  | some r =>
    cases hm : r.revokedAt with
    | none => simp [Record.isLive, Record.isRevoked, Edge.isExpired, hm]
    | some t => simp [Record.isLive, Record.isRevoked, hm]

theorem Clock.now_le_observe (k : Clock) (t : Instant) : k.now ≤ (k.observe t).now := by
  cases k with
  | system reading => exact UInt64.le_refl reading
  | logical highWater =>
    show highWater ≤ if highWater < t then t else highWater
    split_ifs with h
    · exact UInt64.le_of_lt h
    · exact UInt64.le_refl highWater

namespace Context

variable [Arith α] [Logarithm α] {c : Context α} {op : Operation α} {ops : List (Operation α)}
  {a : Arc}

/-! ## Steps -/

theorem step_now_le (hlogical : c.clock.mode = .logical) : c.now ≤ (c.step op).2.now := by
  unfold now
  rw [c.step_clock op hlogical]
  cases op.tells (c.step op).1 with
  | none => exact UInt64.le_refl _
  | some t => exact Clock.now_le_observe _ t

/-- **A pair without a live edge gets one only if an edge is put there.** -/
theorem step_lookupEdge (hlogical : c.clock.mode = .logical) (ha : c.lookupEdge a = none)
    (hadd : ∀ e, op = .add e → (c.step op).1 = .ok .done → e.arc ≠ a) :
    (c.step op).2.lookupEdge a = none := by
  unfold lookupEdge at ha ⊢
  rw [Graph.lookup_eq_none_iff] at ha ⊢
  rcases c.step_standing op a with ⟨e, rfl, harc, hok, -⟩ | ⟨_, -, -, -, -, hafter⟩ |
    ⟨-, -, hafter⟩
  · exact absurd harc (hadd e rfl hok)
  · rw [hafter]
    rintro e ⟨⟩
  · rw [hafter]
    exact fun e he => UInt64.le_trans (ha e he) (step_now_le hlogical)

theorem step_revoke_lookupEdge {reply : Reply α} (h : (c.step (.revoke a)).1 = .ok reply) :
    (c.step (.revoke a)).2.lookupEdge a = none := by
  rw [lookupEdge, Graph.lookup_eq_none_iff]
  rcases c.step_standing (.revoke a) a with ⟨_, hop, -⟩ | ⟨_, -, -, -, -, hafter⟩ | ⟨-, hno, -⟩
  · cases hop
  · rw [hafter]
    rintro e ⟨⟩
  · exact absurd h (hno rfl reply)

/-! ## Runs -/

theorem run_take_succ {i : ℕ} (h : ops[i]? = some op) :
    (c.run (ops.take (i + 1))).2 = ((c.run (ops.take i)).2.step op).2 := by
  rw [List.take_add_one, h, Option.toList_some, run_concat_snd]

/-- **A pair stays without a live edge while none is put there.** -/
theorem run_lookupEdge (hlogical : c.clock.mode = .logical) {i j : ℕ} (hij : i ≤ j)
    (ha : (c.run (ops.take i)).2.lookupEdge a = none)
    (hput : ∀ k e, i ≤ k → k < j → c.PutAt ops k e → e.arc ≠ a) :
    (c.run (ops.take j)).2.lookupEdge a = none := by
  induction j, hij using Nat.le_induction with
  | base => exact ha
  | succ j hij ih =>
    have hbefore := ih fun k e hk hkj => hput k e hk (by omega)
    cases hop : ops[j]? with
    | none =>
      rw [List.take_add_one, hop, Option.toList_none, List.append_nil]
      exact hbefore
    | some op =>
      rw [run_take_succ hop]
      refine step_lookupEdge (isGreatest_now hlogical _).1 hbefore ?_
      rintro e rfl hok
      exact hput j e hij (by omega) ⟨hop, by rw [run_getElem? c hop, hok]⟩

/-! ## Dormant pairs -/

/-- A pair takes no part: it has no live edge, no list of live edges has one of it, a graph that
omits it gives the same reach, reputations and evidence, and no proof with a hop on it is valid. -/
structure Dormant (c : Context α) (a : Arc) : Prop where
  lookup : c.lookupEdge a = none
  outgoing : ∀ u, ∀ e ∈ c.graph.outgoing u c.now, e.arc ≠ a
  incoming : ∀ v, ∀ e ∈ c.graph.incoming v c.now, e.arc ≠ a
  unaware : ∃ g : Graph α, g.Built ∧ g.Omits a c.graph ∧ ∀ node,
    c.graph.reachable node c.now = g.reachable node c.now ∧
    c.reputation node = { c with graph := g }.reputation node ∧
    c.evidence node = { c with graph := g }.evidence node
  refuses : ∀ proof sender receiver p,
    PathProof.decode c.config.proof.maxHops.toNat proof = .ok p → (∃ h ∈ p.hops, h.arc = a) →
    c.evaluate proof sender receiver ≠ .valid ∧ (c.verify proof sender receiver).1 ≠ .valid

omit [Arith α] [Logarithm α] in
theorem not_valid_of_lookupEdge (ha : c.lookupEdge a = none) {proof : Bytes}
    {sender receiver : Identity} {p : PathProof}
    (hd : PathProof.decode c.config.proof.maxHops.toNat proof = .ok p)
    (hp : ∃ h ∈ p.hops, h.arc = a) : c.evaluate proof sender receiver ≠ .valid := by
  intro hv
  obtain ⟨q, hq⟩ := c.evaluate_eq_valid_iff.mp hv
  obtain ⟨hd', -, -, -, hadmits⟩ := Graph.check_eq_ok_iff.mp hq
  obtain rfl : q = p := Except.ok.inj (hd'.symm.trans hd)
  obtain ⟨h, hh, rfl⟩ := hp
  obtain ⟨r, hr, hlive, -⟩ := hadmits h hh
  have hsome := Graph.lookup_eq_some_iff.mpr ⟨r, hr, hlive, rfl⟩
  cases ha.symm.trans hsome

/-- **A pair without a live edge is dormant.** -/
theorem Reached.dormant (hc : c.Reached) (ha : c.lookupEdge a = none) : c.Dormant a where
  lookup := ha
  outgoing u e he harc := by
    have hlive := (hc.graph_built.mem_outgoing_iff.mp he).2
    rw [harc] at hlive
    cases ha.symm.trans hlive
  incoming v e he harc := by
    have hlive := (hc.graph_built.mem_incoming_iff.mp he).2
    rw [harc] at hlive
    cases ha.symm.trans hlive
  unaware := by
    obtain ⟨g, hg, homits⟩ := hc.graph_built.exists_omits a
    have hlookup := homits.lookup_eq ha
    refine ⟨g, hg, homits, fun node => ⟨?_, ?_, ?_⟩⟩
    · exact hc.graph_built.reachable_congr hg fun u _ v => hlookup ⟨u, v⟩
    · exact hc.graph_built.reputation_congr hg (fun u => hlookup ⟨u, node⟩) _
    · have hevidence : c.graph.evidence? node c.now = g.evidence? node c.now :=
        hc.graph_built.evidence?_congr hg fun u _ v => hlookup ⟨u, v⟩
      unfold evidence
      rw [hevidence]
      rfl
  refuses proof sender receiver p hd hp := by
    have hv : c.evaluate proof sender receiver ≠ .valid := not_valid_of_lookupEdge ha hd hp
    exact ⟨hv, Graph.verify_fst.trans_ne hv⟩

/-- **Only putting an edge brings a pair to life**; one that has lost its edge is dormant. -/
theorem live_only_by_add (prefer : Identity → NodeId) (config : Config α) (reading : Instant)
    (hclock : config.clock = .logical) (ops : List (Operation α)) :
    let start := ofConfig prefer config reading
    let after (i : ℕ) := (start.run (ops.take i)).2
    (∀ a i j e, i ≤ j → (after i).lookupEdge a = none → (after j).lookupEdge a = some e →
      ∃ k e', i ≤ k ∧ k < j ∧ start.PutAt ops k e' ∧ e'.arc = a) ∧
    ∀ a i j, i ≤ j →
      ((∃ k t, i = k + 1 ∧ start.RevokedAt ops k a t) ∨
        ∃ r, (after i).graph.record? a = some r ∧ r.edge.expiration ≤ (after i).now) →
      (∀ k e, i ≤ k → k < j → start.PutAt ops k e → e.arc ≠ a) → (after j).Dormant a := by
  intro start after
  have hlogical : start.clock.mode = .logical := by
    show (Clock.start config.clock reading).mode = _
    rw [hclock]
    rfl
  constructor
  · intro a i j e hij hnone hsome
    by_contra hno
    have hput : ∀ k e', i ≤ k → k < j → start.PutAt ops k e' → e'.arc ≠ a :=
      fun k e' hik hkj h ha => hno ⟨k, e', hik, hkj, h, ha⟩
    cases (run_lookupEdge hlogical hij hnone hput).symm.trans hsome
  · intro a i j hij hend hput
    have hreached : (after j).Reached := (Reached.start prefer config reading).run _
    refine hreached.dormant (run_lookupEdge hlogical hij ?_ hput)
    rcases hend with ⟨k, t, rfl, ⟨reply, hop, hreply⟩, -⟩ | ⟨r, hr, hended⟩
    · rw [run_take_succ hop]
      rw [run_getElem? start hop, Option.some.injEq] at hreply
      exact step_revoke_lookupEdge hreply
    · show (after i).graph.lookup a (after i).now = none
      rw [Graph.lookup, hr]
      have hdead : r.isLive (after i).now = false := by
        simp [Record.isLive, Edge.isExpired, hended]
      simp [hdead]

/-- The edge came back by being put, and right after its revocation the pair was dormant. -/
theorem live_only_by_add_revival :
    let start := ofConfig Identity.preferred Config.default 0
    (∃ t, start.RevokedAt revival 4 ⟨3246643754, 2416186773⟩ t) ∧
    (start.run (revival.take 5)).2.Dormant ⟨3246643754, 2416186773⟩ ∧
    ∃ k e, 5 ≤ k ∧ k < 6 ∧ start.PutAt revival k e ∧ e.arc = ⟨3246643754, 2416186773⟩ := by
  intro start
  have hclock : (Config.default : Config Float).clock = .logical := rfl
  obtain ⟨hput, hdormant⟩ := live_only_by_add Identity.preferred Config.default 0 hclock revival
  have hsome : ((start.run (revival.take 6)).2.lookupEdge
      ⟨3246643754, 2416186773⟩).isSome = true := by decide +kernel
  have hop : revival[4]? = some (.revoke ⟨3246643754, 2416186773⟩) := rfl
  have hok : (((start.run (revival.take 4)).2.step
      (.revoke ⟨3246643754, 2416186773⟩)).1).isOk = true := by decide +kernel
  obtain ⟨reply, hreply⟩ : ∃ reply, ((start.run (revival.take 4)).2.step
      (.revoke ⟨3246643754, 2416186773⟩)).1 = .ok reply := by
    revert hok
    cases ((start.run (revival.take 4)).2.step (.revoke ⟨3246643754, 2416186773⟩)).1 with
    | ok reply => exact fun _ => ⟨reply, rfl⟩
    | error f => rintro ⟨⟩
  have hrevoked : start.RevokedAt revival 4 ⟨3246643754, 2416186773⟩
      (start.run (revival.take 4)).2.now :=
    ⟨⟨reply, hop, by rw [run_getElem? _ hop, hreply]⟩, rfl⟩
  have hfive := hdormant _ 5 5 le_rfl (.inl ⟨4, _, rfl, hrevoked⟩) fun k e hk hk' => by omega
  obtain ⟨e, he⟩ := Option.isSome_iff_exists.mp hsome
  exact ⟨⟨_, hrevoked⟩, hfive, hput _ 5 6 e (by decide) hfive.lookup he⟩

end Context

end WebOfTrust
