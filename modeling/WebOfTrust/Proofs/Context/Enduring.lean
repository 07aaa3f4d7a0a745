import Mathlib
import WebOfTrust.Proofs.Context.History
import WebOfTrust.Proofs.Context.Paths
import WebOfTrust.Proofs.Registry.Assignment

/-!
# Proofs that endure

A valid path proof depends on the nodes of two identities, on the edges of the pairs that its hops
lead along, and on the nonces of these hops. What else happens to a context leaves it valid for as
long as none of its edges has ended.

* `step_lookup`, `run_lookup`: known identities keep their nodes;
* **`run_standing_of_spared`**: a pair keeps its edge when none is put or revoked there;
* `Graph.lookup_iff_standing`, `Graph.admits_iff_standing`: when a hop may be taken, by the edge of
  its pair;
* `Context.Spares`: a history in which nothing happens to some hops;
  **`Context.evaluate_endures_iff`**: how long a proof stays valid in such a history.
-/

namespace WebOfTrust

variable {α : Type}

/-! ## Hops by the edges of their pairs -/

namespace Graph

variable {g : Graph α} {now : Instant}

theorem lookup_iff_standing {a : Arc} {e : Edge α} :
    g.lookup a now = some e ↔ g.standing a = some (e, none) ∧ now < e.expiration := by
  rw [lookup_eq_some_iff, standing]
  cases g.record? a with
  | none => simp
  | some r =>
    simp only [Option.some.injEq, exists_eq_left', Option.map_some, Prod.mk.injEq, Record.isLive,
      Record.isRevoked, Edge.isExpired, Bool.and_eq_true, Bool.not_eq_true',
      Option.isSome_eq_false_iff, Option.isNone_iff_eq_none, decide_eq_false_iff_not,
      UInt64.not_le]
    constructor
    · rintro ⟨⟨hm, hlt⟩, rfl⟩
      exact ⟨⟨rfl, hm⟩, hlt⟩
    · rintro ⟨⟨rfl, hm⟩, hlt⟩
      exact ⟨⟨hm, hlt⟩, rfl⟩

theorem admits_iff_standing {h : Hop} : g.Admits now h ↔ ∃ e, g.standing h.arc = some (e, none) ∧
    now < e.expiration ∧ e.nonce ≤ h.nonce ∧ ¬ g.Spent h.arc h.nonce := by
  simp only [admits_iff, lookup_iff_standing, and_assoc]

end Graph

theorem PathProof.connects_mono {r r' : Registry} {sender receiver : Identity} {p : PathProof}
    (hr : ∀ i n, r.lookup i = some n → r'.lookup i = some n)
    (h : p.connects r sender receiver = true) : p.connects r' sender receiver = true := by
  rw [connects_iff, Strays] at h ⊢
  push Not at h ⊢
  obtain ⟨hsender, hreceiver, hs, ht, hhead, hlast⟩ := h
  obtain ⟨s, hs⟩ := Option.ne_none_iff_exists'.mp hs
  obtain ⟨t, ht⟩ := Option.ne_none_iff_exists'.mp ht
  rw [hs] at hhead
  rw [ht] at hlast
  simp [hsender, hreceiver, hr _ _ hs, hr _ _ ht, hhead, hlast]

namespace Context

variable [Arith α] [Logarithm α] {c : Context α} {ops : List (Operation α)} {a : Arc}

/-! ## What a history leaves alone -/

theorem step_lookup (op : Operation α) {i : Identity} {n : NodeId}
    (h : c.registry.lookup i = some n) : (c.step op).2.registry.lookup i = some n := by
  rcases c.step_registry op with hr | ⟨j, hr⟩
  · rw [hr]
    exact h
  · rw [hr]
    exact (Registry.lookup_answer (.identity j)).mpr (.inl h)

theorem run_lookup (ops : List (Operation α)) {i : Identity} {n : NodeId}
    (h : c.registry.lookup i = some n) : (c.run ops).2.registry.lookup i = some n := by
  induction ops generalizing c with
  | nil => exact h
  | cons op rest ih => exact ih (c.step_lookup op h)

/-- **A pair keeps its edge when none is put or revoked there.** -/
theorem run_standing_of_spared (hput : ∀ i e, c.PutAt ops i e → e.arc ≠ a)
    (hrevoke : ∀ i b t, c.RevokedAt ops i b t → b ≠ a) :
    (c.run ops).2.graph.standing a = c.graph.standing a := by
  induction ops using List.reverseRecOn with
  | nil => rfl
  | append_singleton ops op ih =>
    have hbefore : (c.run ops).2.graph.standing a = c.graph.standing a :=
      ih (fun i e h => hput i e (putAt_concat_iff.mpr (.inl h)))
        (fun i b t h => hrevoke i b t (revokedAt_concat_iff.mpr (.inl h)))
    rw [run_concat_snd]
    rcases (c.run ops).2.step_standing op a with ⟨e, rfl, harc, hok, -⟩ |
      ⟨e, rfl, hok, -, -, -⟩ | ⟨-, -, hafter⟩
    · exact absurd harc (hput _ e (putAt_concat_iff.mpr (.inr ⟨rfl, rfl, hok⟩)))
    · exact absurd rfl (hrevoke _ a _ (revokedAt_concat_iff.mpr (.inr ⟨rfl, rfl, hok, rfl⟩)))
    · exact hafter.trans hbefore

/-! ## Valid proofs -/

/-- Nothing happens to some hops in a history: no edge is put or revoked on their pairs, and no
proof that is found valid spends one of them. -/
structure Spares (c : Context α) (ops : List (Operation α)) (hops : List Hop) : Prop where
  put : ∀ i e, c.PutAt ops i e → ∀ h ∈ hops, e.arc ≠ h.arc
  revoked : ∀ i a t, c.RevokedAt ops i a t → ∀ h ∈ hops, a ≠ h.arc
  accepted : ∀ i h, c.AcceptedAt ops i h → h ∉ hops

theorem Spares.admits_iff {hops : List Hop} (hs : c.Spares ops hops) {h : Hop} (hh : h ∈ hops)
    (hbefore : c.graph.Admits c.now h) : (c.run ops).2.graph.Admits (c.run ops).2.now h ↔
      ∀ e, c.lookupEdge h.arc = some e → (c.run ops).2.now < e.expiration := by
  obtain ⟨e, hstands, hlt, hnonce, hspent⟩ := Graph.admits_iff_standing.mp hbefore
  have hlookup : c.lookupEdge h.arc = some e := Graph.lookup_iff_standing.mpr ⟨hstands, hlt⟩
  have hkept : (c.run ops).2.graph.standing h.arc = some (e, none) :=
    (run_standing_of_spared (fun i e' hi => hs.put i e' hi h hh)
      (fun i b t hi => hs.revoked i b t hi h hh)).trans hstands
  have hunspent : ¬ (c.run ops).2.graph.Spent h.arc h.nonce := by
    rw [spent_iff_acceptedAt hspent]
    rintro ⟨i, hi⟩
    exact hs.accepted i _ hi hh
  rw [Graph.admits_iff_standing, hlookup]
  constructor
  · rintro ⟨e', hstands', hlt', -⟩ _ ⟨⟩
    cases hkept.symm.trans hstands'
    exact hlt'
  · exact fun hend => ⟨e, hkept, hend e rfl, hnonce, hunspent⟩

/-- **A valid proof is not lost to what does not concern it**, until one of its edges ends. -/
theorem evaluate_endures_iff {proof : Bytes} {sender receiver : Identity} {p : PathProof}
    (hv : c.evaluate proof sender receiver = .valid)
    (hd : PathProof.decode c.config.proof.maxHops.toNat proof = .ok p) (hs : c.Spares ops p.hops) :
    (c.run ops).2.evaluate proof sender receiver = .valid ↔
      ∀ h ∈ p.hops, ∀ e, c.lookupEdge h.arc = some e → (c.run ops).2.now < e.expiration := by
  obtain ⟨q, hq⟩ := c.evaluate_eq_valid_iff.mp hv
  obtain ⟨hd', hconnects, hjoined, hnodup, hadmits⟩ := Graph.check_eq_ok_iff.mp hq
  obtain rfl : q = p := Except.ok.inj (hd'.symm.trans hd)
  have hconnected : q.connects (c.run ops).2.registry sender receiver = true :=
    PathProof.connects_mono (fun _ _ => run_lookup ops) hconnects
  have hdecode : PathProof.decode (c.run ops).2.config.proof.maxHops.toNat proof = .ok q := by
    rw [run_snd_config]
    exact hd
  rw [evaluate_eq_valid_iff]
  constructor
  · rintro ⟨q', hq'⟩ h hh
    obtain ⟨hd', -, -, -, hafter⟩ := Graph.check_eq_ok_iff.mp hq'
    obtain rfl : q' = q := Except.ok.inj (hd'.symm.trans hdecode)
    exact (hs.admits_iff hh (hadmits h hh)).mp (hafter h hh)
  · intro hend
    refine ⟨q, Graph.check_eq_ok_iff.mpr ⟨hdecode, hconnected, hjoined, hnodup, fun h hh => ?_⟩⟩
    exact (hs.admits_iff hh (hadmits h hh)).mpr (hend h hh)

section Bystanders

/-- An agent that takes no part in the proof. -/
def carol : Identity := ⟨⟨List.replicate 32 2, rfl⟩⟩

/-- The proof of the path over the third node. -/
def relayProof : Bytes :=
  1 :: alice.bytes ++ bob.bytes ++ [2, 0] ++ relay.flatMap Hop.encode

/-- Another proof of that path, with other nonces. -/
def otherProof : Bytes :=
  1 :: alice.bytes ++ bob.bytes ++ [2, 0] ++ Hop.encode ⟨3246643754, 8, 4⟩ ++
    Hop.encode ⟨8, 2416186773, 10⟩

/-- A third agent comes, an edge back over the path is put and revoked, the other proof is verified,
and time goes by. -/
def bystanding : List (Operation Float) :=
  [.registerIdentity carol, .add ⟨8, 3246643754, -1, 20, 0, 3, 100⟩, .revoke ⟨8, 3246643754⟩,
    .verify otherProof alice bob, .advance 60]

theorem spares_bystanding : relayed.Spares bystanding relay := by
  have hdecode : PathProof.decode relayed.config.proof.maxHops.toNat otherProof =
      .ok ⟨alice, bob, [⟨3246643754, 8, 4⟩, ⟨8, 2416186773, 10⟩]⟩ := by decide +kernel
  refine ⟨fun i e hi => ?_, fun i a t hi => ?_, fun i h hi => ?_⟩
  · have hop := hi.1
    have hlt : i < 5 := hi.lt
    interval_cases i <;> simp [bystanding] at hop
    rw [← hop]
    decide
  · obtain ⟨⟨reply, hi⟩, -⟩ := hi
    have hop := hi.1
    have hlt : i < 5 := hi.lt
    interval_cases i <;> simp [bystanding] at hop
    rw [← hop]
    decide
  · obtain ⟨proof, s, r, p, hi, hp, hh⟩ := hi
    have hop := hi.1
    have hlt : i < 5 := hi.lt
    interval_cases i <;> simp [bystanding] at hop
    obtain ⟨rfl, -, -⟩ := hop
    cases hdecode.symm.trans hp
    revert h
    decide

/-- The proof of the path stays valid, also after the other one was found valid. -/
theorem evaluate_endures_iff_bystanding :
    relayed.evaluate relayProof alice bob = .valid ∧
    PathProof.decode relayed.config.proof.maxHops.toNat relayProof = .ok ⟨alice, bob, relay⟩ ∧
    relayed.Spares bystanding relay ∧
    (relayed.run (bystanding.take 3)).2.evaluate otherProof alice bob = .valid ∧
    (relayed.run bystanding).2.evaluate relayProof alice bob = .valid := by
  have hvalid : relayed.evaluate relayProof alice bob = .valid := by decide +kernel
  have hdecode : PathProof.decode relayed.config.proof.maxHops.toNat relayProof =
      .ok ⟨alice, bob, relay⟩ := by decide +kernel
  have hnow : (relayed.run bystanding).2.now = 60 := by decide +kernel
  have hends : ∀ h ∈ relay, (relayed.lookupEdge h.arc).all (fun e => 60 < e.expiration) = true := by
    decide +kernel
  refine ⟨hvalid, hdecode, spares_bystanding, by decide +kernel,
    (evaluate_endures_iff hvalid hdecode spares_bystanding).mpr fun h hh e he => ?_⟩
  have hend := hends h hh
  rw [he] at hend
  rw [hnow]
  simpa using hend

end Bystanders

end Context

end WebOfTrust
