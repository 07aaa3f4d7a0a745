import Mathlib
import WebOfTrust.Proofs.Context.Reached
import WebOfTrust.Proofs.Context.Replay
import WebOfTrust.Proofs.Graph.Reach
import WebOfTrust.Proofs.PathProof.Findings
import WebOfTrust.Proofs.PathProof.Format

/-!
# Valid proofs and live paths

A valid proof follows a path of live edges from the node of its sender to that of its receiver, and
every such path can be proved, if it is short enough and has nonces to spend.

* `Graph.Leads`: hops along live edges from one node to another; `leads_iff`, `Leads.reaches`;
* `admits_iff`: when a hop may be taken, by its live edge;
* **`Context.Reached.valid_iff_path`**: what a valid proof follows, and what can be proved.
-/

namespace WebOfTrust

variable {α : Type}

/-! ## Paths -/

namespace Graph

variable {g : Graph α} {now : Instant} {u v : NodeId} {hops : List Hop}

/-- Some hops lead along live edges from one node to another. -/
def Leads (g : Graph α) (now : Instant) : NodeId → List Hop → NodeId → Prop
  | u, [], v => u = v
  | u, h :: rest, v =>
    h.source = u ∧ (∃ e, g.lookup h.arc now = some e) ∧ Leads g now h.target rest v

theorem leads_iff (hne : hops ≠ []) : g.Leads now u hops v ↔
    PathProof.joined hops = true ∧ hops.head?.map (·.source) = some u ∧
      hops.getLast?.map (·.target) = some v ∧ ∀ h ∈ hops, ∃ e, g.lookup h.arc now = some e := by
  induction hops generalizing u with
  | nil => exact absurd rfl hne
  | cons h rest ih =>
    cases rest with
    | nil =>
      simp [Leads, PathProof.joined]
      tauto
    | cons k rest =>
      rw [Leads, ih (List.cons_ne_nil k rest)]
      have hk : h.target = k.source ↔ k.source = h.target := eq_comm
      simp only [PathProof.joined, hk, List.head?_cons, Option.map_some, Option.some.injEq,
        List.getLast?_cons_cons, Bool.and_eq_true, decide_eq_true_eq, List.forall_mem_cons]
      tauto

/-- Hops lead to nodes within reach. -/
theorem Leads.reaches (h : g.Leads now u hops v) : g.Reaches now u v := by
  induction hops generalizing u with
  | nil =>
    cases h
    exact .refl
  | cons k rest ih =>
    obtain ⟨rfl, hlive, hrest⟩ := h
    exact .head hlive (ih hrest)

theorem admits_iff {h : Hop} : g.Admits now h ↔
    ∃ e, g.lookup h.arc now = some e ∧ e.nonce ≤ h.nonce ∧ ¬ g.Spent h.arc h.nonce := by
  unfold Admits Spent
  simp only [lookup_eq_some_iff]
  constructor
  · rintro ⟨r, hr, hlive, hle, hs⟩
    refine ⟨r.edge, ⟨r, hr, hlive, rfl⟩, hle, ?_⟩
    rintro ⟨r', hr', hs'⟩
    cases hr.symm.trans hr'
    exact hs hs'
  · rintro ⟨e, ⟨r, hr, hlive, rfl⟩, hle, hs⟩
    exact ⟨r, hr, hlive, hle, fun hs' => hs ⟨r, hr, hs'⟩⟩

end Graph

/-! ## Proofs of paths -/

namespace Context

variable [Arith α] [Logarithm α] {c : Context α} {sender receiver : Identity} {s r : NodeId}
  {hops : List Hop} {proof : Bytes}

omit [Arith α] [Logarithm α] in
theorem verify_fst (proof : Bytes) (sender receiver : Identity) :
    (c.verify proof sender receiver).1 = c.evaluate proof sender receiver :=
  Graph.verify_fst

omit [Arith α] [Logarithm α] in
theorem leads_of_evaluate (hv : c.evaluate proof sender receiver = .valid) :
    ∃ p s r, PathProof.decode c.config.proof.maxHops.toNat proof = .ok p ∧
      c.registry.lookup sender = some s ∧ c.registry.lookup receiver = some r ∧
      c.graph.Leads c.now s p.hops r := by
  obtain ⟨p, hp⟩ := c.evaluate_eq_valid_iff.mp hv
  obtain ⟨hd, hconnects, hjoined, -, hadmits⟩ := Graph.check_eq_ok_iff.mp hp
  rw [PathProof.connects_iff, PathProof.Strays] at hconnects
  push Not at hconnects
  obtain ⟨-, -, hs, hr, hhead, hlast⟩ := hconnects
  obtain ⟨s, hs⟩ := Option.ne_none_iff_exists'.mp hs
  obtain ⟨r, hr⟩ := Option.ne_none_iff_exists'.mp hr
  refine ⟨p, s, r, hd, hs, hr, (Graph.leads_iff (PathProof.decode_hops_ne_nil hd)).mpr
    ⟨hjoined, hhead.trans hs, hlast.trans hr, fun h hh => ?_⟩⟩
  obtain ⟨e, he, -⟩ := Graph.admits_iff.mp (hadmits h hh)
  exact ⟨e, he⟩

omit [Arith α] [Logarithm α] in
/-- **A path can be proved**: a simple one of live edges with nonces to spend, not too long. -/
theorem evaluate_of_leads (hs : c.registry.lookup sender = some s)
    (hr : c.registry.lookup receiver = some r) (hsr : s ≠ r)
    (hleads : c.graph.Leads c.now s hops r) (hsimple : (s :: hops.map (·.target)).Nodup)
    (hlength : hops.length ≤ c.config.proof.maxHops.toNat)
    (hfresh : ∀ h ∈ hops, ∀ e, c.lookupEdge h.arc = some e →
      e.nonce ≤ h.nonce ∧ ¬ c.graph.Spent h.arc h.nonce) :
    ∃ proof, (PathProof.encode ⟨sender, receiver, hops⟩ : Except (Fault α) Bytes) = .ok proof ∧
      c.evaluate proof sender receiver = .valid := by
  have hne : hops ≠ [] := by
    rintro rfl
    exact hsr hleads
  have hpos : 1 ≤ hops.length := List.length_pos_iff.mpr hne
  -- No setting permits more hops than can be written.
  have hcount : hops.length ≤ PathProof.countLimit := by
    have := c.config.proof.maxHops.toNat_lt
    unfold PathProof.countLimit
    omega
  refine ⟨_, PathProof.encode_eq_ok_iff.mpr ⟨hcount, rfl⟩, ?_⟩
  obtain ⟨hjoined, hhead, hlast, hlive⟩ := (Graph.leads_iff hne).mp hleads
  refine c.evaluate_eq_valid_iff.mpr
    ⟨⟨sender, receiver, hops⟩, Graph.check_eq_ok_iff.mpr ⟨?_, ?_, hjoined, ?_, ?_⟩⟩
  · rw [PathProof.decode_layout hcount, if_neg]
    dsimp only
    omega
  · simp [PathProof.connects, hs, hr, hhead, hlast]
  · -- A path that comes to no node twice takes no hop twice.
    exact (List.nodup_cons.mp hsimple).2.of_map _
  · intro h hh
    obtain ⟨e, he⟩ := hlive h hh
    exact Graph.admits_iff.mpr ⟨e, he, hfresh h hh e he⟩

/-- **A valid proof follows a live path, and a live path can be proved.** -/
theorem Reached.valid_iff_path (hc : c.Reached) :
    (∀ proof sender receiver, (c.verify proof sender receiver).1 = .valid →
      ∃ p first last s r, PathProof.decode c.config.proof.maxHops.toNat proof = .ok p ∧
        p.hops.head? = some first ∧ c.registry.identityOf first.source = some sender ∧
        p.hops.getLast? = some last ∧ c.registry.identityOf last.target = some receiver ∧
        (∀ h ∈ p.hops, ∃ e, c.lookupEdge h.arc = some e) ∧
        (∀ i h k, p.hops[i]? = some h → p.hops[i + 1]? = some k → h.target = k.source) ∧
        1 ≤ p.hops.length ∧ p.hops.length ≤ c.config.proof.maxHops.toNat ∧
        c.registry.lookup sender = some s ∧ c.registry.lookup receiver = some r ∧
        (c.graph.reachable s c.now).contains r = true) ∧
    (∀ sender receiver s r hops, c.registry.lookup sender = some s →
      c.registry.lookup receiver = some r → s ≠ r → c.graph.Leads c.now s hops r →
      (s :: hops.map (·.target)).Nodup → hops.length ≤ c.config.proof.maxHops.toNat →
      (∀ h ∈ hops, ∀ e, c.lookupEdge h.arc = some e →
        e.nonce ≤ h.nonce ∧ ¬ c.graph.Spent h.arc h.nonce) →
      ∃ proof, (PathProof.encode ⟨sender, receiver, hops⟩ : Except (Fault α) Bytes) = .ok proof ∧
        (c.verify proof sender receiver).1 = .valid) := by
  constructor
  · intro proof sender receiver hv
    rw [verify_fst] at hv
    obtain ⟨p, s, r, hd, hs, hr, hleads⟩ := leads_of_evaluate hv
    obtain ⟨-, -, hpos, hle⟩ := PathProof.layout_of_decode hd
    obtain ⟨hjoined, hhead, hlast, hlive⟩ :=
      (Graph.leads_iff (PathProof.decode_hops_ne_nil hd)).mp hleads
    obtain ⟨first, hfirst, rfl⟩ := Option.map_eq_some_iff.mp hhead
    obtain ⟨last, hfinal, rfl⟩ := Option.map_eq_some_iff.mp hlast
    exact ⟨p, first, last, _, _, hd, hfirst, (hc.registry_consistent _ _).mp hs, hfinal,
      (hc.registry_consistent _ _).mp hr, hlive, PathProof.joined_iff.mp hjoined, hpos, hle, hs, hr,
      (hc.graph_built.contains_reachable _ _ _).mpr hleads.reaches⟩
  · intro sender receiver s r hops hs hr hsr hleads hsimple hlength hfresh
    simp only [verify_fst]
    exact evaluate_of_leads hs hr hsr hleads hsimple hlength hfresh

/-! ## A path of two edges -/

section Relay

/-- Two agents, and live edges from the node of the one to that of the other over a third node. -/
def relayed : Context Float :=
  ((ofConfig Identity.preferred Config.default 0).run
    [.registerIdentity alice, .registerIdentity bob,
      .add ⟨3246643754, 8, 1, 5, 3, 3, 100⟩, .add ⟨8, 2416186773, -1, 7, 0, 1, 90⟩]).2

/-- The hops over the third node, the first with the lowest nonce that is permitted. -/
def relay : List Hop := [⟨3246643754, 8, 3⟩, ⟨8, 2416186773, 9⟩]

theorem relay_live : ∀ h ∈ relay, (relayed.lookupEdge h.arc).isSome = true ∧
    (relayed.lookupEdge h.arc).all (fun e => e.nonce ≤ h.nonce) = true ∧
    (relayed.graph.record? h.arc).any (fun r => r.isSpent h.nonce) = false := by decide +kernel

/-- The path is proved, and the proof shows that the one agent is within reach of the other. -/
theorem valid_iff_path_relay : relayed.Reached ∧
    relayed.graph.Leads relayed.now 3246643754 relay 2416186773 ∧
    ∃ proof, (PathProof.encode ⟨alice, bob, relay⟩ : Except (Fault Float) Bytes) = .ok proof ∧
      (relayed.verify proof alice bob).1 = .valid ∧
      (relayed.graph.reachable 3246643754 relayed.now).contains 2416186773 = true := by
  have hreached : relayed.Reached := (Reached.start Identity.preferred Config.default 0).run _
  have hlive : ∀ h ∈ relay, ∃ e, relayed.lookupEdge h.arc = some e := fun h hh =>
    Option.isSome_iff_exists.mp (relay_live h hh).1
  have hleads : relayed.graph.Leads relayed.now 3246643754 relay 2416186773 :=
    ⟨rfl, hlive _ (by decide), rfl, hlive _ (by decide), rfl⟩
  have halice : relayed.registry.lookup alice = some 3246643754 := by decide +kernel
  have hbob : relayed.registry.lookup bob = some 2416186773 := by decide +kernel
  have hfresh : ∀ h ∈ relay, ∀ e, relayed.lookupEdge h.arc = some e →
      e.nonce ≤ h.nonce ∧ ¬ relayed.graph.Spent h.arc h.nonce := by
    intro h hh e he
    obtain ⟨-, hle, hspent⟩ := relay_live h hh
    rw [he] at hle
    refine ⟨by simpa using hle, ?_⟩
    rintro ⟨r, hr, hs⟩
    rw [hr] at hspent
    simp [hs] at hspent
  obtain ⟨proof, hproof, hvalid⟩ := hreached.valid_iff_path.2 alice bob 3246643754 2416186773 relay
    halice hbob (by decide) hleads (by decide) (by decide +kernel) hfresh
  obtain ⟨_, _, _, s, r, -, -, -, -, -, -, -, -, -, hs, hr, hwithin⟩ :=
    hreached.valid_iff_path.1 proof alice bob hvalid
  cases halice.symm.trans hs
  cases hbob.symm.trans hr
  exact ⟨hreached, hleads, proof, hproof, hvalid, hwithin⟩

end Relay

end Context

end WebOfTrust
