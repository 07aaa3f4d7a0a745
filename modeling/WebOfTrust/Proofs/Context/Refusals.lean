import Mathlib
import WebOfTrust.Proofs.Context.Replay
import WebOfTrust.Proofs.Context.Events
import WebOfTrust.Proofs.Slash.Format

/-!
# Refused requests

A request that fails leaves the whole context as it was: registry, records, spent nonces, clock, and
the nonce of the next slash signal.

* `register_of_error`, `addEdge_of_error`, `revokeEdge_of_error`, `verify_of_ne_valid`,
  `slash_of_error`, `advance_of_le`: why each request fails, and what is left after it;
  `slash_cases`: when a signal is issued;
* `Context.Refuses`: an operation is refused; **`step_of_refuses`**: it changes nothing;
* **`refusal_atomic`**: all of it, and what it means for a history.
-/

namespace WebOfTrust

variable {α : Type}

/-! ## Registration -/

theorem Identity.ofBytes?_eq_none_iff {bytes : Bytes} :
    Identity.ofBytes? bytes = none ↔ bytes.length ≠ 32 := by
  unfold Identity.ofBytes? Octets.ofBytes?
  by_cases h : bytes.length = 32 <;> simp [h]

theorem Identity.ofBytes?_bytes (i : Identity) : Identity.ofBytes? i.bytes = some i := by
  unfold Identity.ofBytes? Octets.ofBytes?
  rw [dif_pos (show i.bytes.length = 32 from i.octets.property)]
  rfl

namespace Registry

variable {r : Registry} {prefer : Identity → NodeId} {f : Fault α}

theorem resolve_of_error {i : Identity} (h : (r.resolve prefer i).1 = .error f) :
    f = .nodeSpaceExhausted ∧ (r.resolve prefer i : Except (Fault α) NodeId × Registry).2 = r := by
  unfold resolve at h ⊢
  cases hi : r.lookup i with
  | some n => simp [hi] at h
  | none =>
    cases hn : r.firstFree? UInt32.size (prefer i) with
    | some n => simp [hi, hn] at h
    | none => simpa [hi, hn, eq_comm] using h

theorem resolveBytes_of_error {bytes : Bytes} (h : (r.resolveBytes prefer bytes).1 = .error f) :
    (f = .malformedIdentity bytes.length ∧ bytes.length ≠ 32 ∨ f = .nodeSpaceExhausted) ∧
      (r.resolveBytes prefer bytes : Except (Fault α) NodeId × Registry).2 = r := by
  unfold resolveBytes at h ⊢
  cases hi : Identity.ofBytes? bytes with
  | none =>
    have hf : f = .malformedIdentity bytes.length := by simpa [hi, eq_comm] using h
    exact ⟨.inl ⟨hf, Identity.ofBytes?_eq_none_iff.mp hi⟩, rfl⟩
  | some i =>
    rw [hi] at h
    obtain ⟨hf, hr⟩ := resolve_of_error h
    exact ⟨.inr hf, hr⟩

end Registry

namespace Context

variable (c : Context α) {f : Fault α}

theorem register_of_error {bytes : Bytes} (h : (c.register bytes).1 = .error f) :
    (f = .malformedIdentity bytes.length ∧ bytes.length ≠ 32 ∨ f = .nodeSpaceExhausted) ∧
      (c.register bytes : Except (Fault α) NodeId × Context α).2 = c := by
  obtain ⟨hf, hr⟩ := Registry.resolveBytes_of_error h
  refine ⟨hf, ?_⟩
  show { c with registry := (c.registry.resolveBytes c.prefer bytes :
    Except (Fault α) NodeId × Registry).2 } = c
  rw [hr]

theorem registerIdentity_of_error {i : Identity} (h : (c.registerIdentity i).1 = .error f) :
    f = .nodeSpaceExhausted ∧ (c.registerIdentity i).2 = c := by
  obtain ⟨hf, hr⟩ := Registry.resolve_of_error h
  refine ⟨hf, ?_⟩
  show { c with registry := (c.registry.resolve c.prefer i :
    Except (Fault α) NodeId × Registry).2 } = c
  rw [hr]

/-! ## Edges -/

theorem addEdge_of_error [Arith α] {e : Edge α} (h : (c.addEdge e).1 = .error f) :
    e.fault? = some f ∧ (c.addEdge e).2 = c := by
  rw [addEdge_eq] at h ⊢
  cases hf : e.fault? with
  | none => simp [hf] at h
  | some f' => simpa [hf] using h

theorem revokeEdge_of_error {a : Arc} (h : (c.revokeEdge a).1 = .error f) :
    f = .edgeNotFound a.source a.target ∧ c.lookupEdge a = none ∧ (c.revokeEdge a).2 = c := by
  unfold revokeEdge lookupEdge Graph.revoke Graph.lookup at *
  cases hr : c.graph.record? a with
  | none => simpa [hr, eq_comm] using h
  | some r =>
    by_cases hl : r.isLive c.now = true
    · simp [hr, hl] at h
    · simpa [hr, hl, eq_comm] using h

/-! ## Proofs, signals and time -/

theorem verify_of_ne_valid {proof : Bytes} {sender receiver : Identity}
    (h : (c.verify proof sender receiver).1 ≠ .valid) : (c.verify proof sender receiver).2 = c := by
  have hg := Graph.verify_snd_of_ne_valid (Graph.verify_fst.symm.trans_ne h)
  show { c with graph := (c.graph.verify c.registry c.config.proof.maxHops.toNat proof sender
    receiver c.now).2 } = c
  rw [hg]

section Slash

variable [Arith α] [Logarithm α] (target : Bytes) (reason : UInt8) (evidence : Octets 32)

/-- **A signal is issued for an identity and a reason to slash**, and all else is refused. -/
theorem slash_cases :
    (target.length = 32 ∧ reason ∈ [1, 2, 3] ∧ ∃ (i : Identity) (why : Reason),
      i.bytes = target ∧ why.code = reason ∧ c.slash target reason evidence =
        (.ok ⟨i, why, evidence, c.now, c.severityOf i, c.slashNonce⟩,
          { c with slashNonce := c.slashNonce + 1 })) ∨
    ¬ (target.length = 32 ∧ reason ∈ [1, 2, 3]) ∧ ∃ f,
      (f = .malformedIdentity target.length ∧ target.length ≠ 32 ∨ f = .invalidSlashReason reason) ∧
      c.slash target reason evidence = (.error f, c) := by
  by_cases hlength : target.length = 32
  · obtain ⟨i, rfl⟩ : ∃ i : Identity, i.bytes = target := ⟨⟨⟨target, hlength⟩⟩, rfl⟩
    by_cases hmem : reason ∈ [1, 2, 3]
    · obtain ⟨why, hwhy⟩ := SlashSignal.exists_reasonOf_iff (α := α).mpr hmem
      obtain ⟨hcode, hne⟩ := SlashSignal.reasonOf_eq_ok_iff.mp hwhy
      refine .inl ⟨hlength, hmem, i, why, rfl, hcode, ?_⟩
      unfold slash
      simp only [i.ofBytes?_bytes, hwhy, SlashSignal.make, if_neg hne]
    · refine .inr ⟨fun h => hmem h.2, .invalidSlashReason reason, .inr rfl, ?_⟩
      unfold slash
      simp only [i.ofBytes?_bytes, SlashSignal.reasonOf_of_notMem hmem]
  · refine .inr ⟨fun h => hlength h.1, .malformedIdentity target.length, .inl ⟨rfl, hlength⟩, ?_⟩
    unfold slash
    simp only [Identity.ofBytes?_eq_none_iff.mpr hlength]

variable {target reason evidence}

theorem slash_of_error (h : (c.slash target reason evidence).1 = .error f) :
    (f = .malformedIdentity target.length ∧ target.length ≠ 32 ∨ f = .invalidSlashReason reason) ∧
      (c.slash target reason evidence).2 = c := by
  rcases c.slash_cases target reason evidence with
    ⟨-, -, i, why, -, -, hslash⟩ | ⟨-, f', hf', hslash⟩
  · rw [hslash] at h
    cases h
  · rw [hslash] at h ⊢
    obtain rfl := Except.error.inj h
    exact ⟨hf', rfl⟩

end Slash

theorem advance_of_le (hlogical : c.clock.mode = .logical) {t : Instant} (ht : t ≤ c.now) :
    c.advance t = (c.now, c) := by
  have hclock : c.clock.observe t = c.clock := by
    unfold now at ht
    cases hc : c.clock with
    | system reading => simp [hc, Clock.mode] at hlogical
    | logical highWater =>
      rw [hc] at ht
      have hlt : ¬ highWater < t := UInt64.not_lt.mpr ht
      simp [Clock.observe, hlt]
  unfold advance
  rw [hclock]
  rfl

/-! ## Refusals -/

theorem error_of_map {β γ : Type} {x : Except (Fault α) β} {g : β → γ} {f : Fault α}
    (h : x.map g = .error f) : x = .error f := by
  cases x with
  | error f' => exact congrArg _ (Except.error.inj h)
  | ok b => cases h

variable [Arith α] [Logarithm α]

/-- An operation is refused: it fails, or it is the verification of a proof that is not valid, or it
sets a logical clock to a time that is not ahead. -/
def Refuses (c : Context α) : Operation α → Prop
  | .verify proof sender receiver => (c.verify proof sender receiver).1 ≠ .valid
  | .advance t => c.clock.mode = .logical ∧ t ≤ c.now
  | op => ∃ f, (c.step op).1 = .error f

/-- **A refused operation changes nothing.** -/
theorem step_of_refuses {op : Operation α} (h : c.Refuses op) : (c.step op).2 = c := by
  cases op with
  | register bytes =>
    obtain ⟨f, hf⟩ := h
    exact (c.register_of_error (error_of_map hf)).2
  | registerIdentity i =>
    obtain ⟨f, hf⟩ := h
    exact (c.registerIdentity_of_error (error_of_map hf)).2
  | add e =>
    obtain ⟨f, hf⟩ := h
    exact (c.addEdge_of_error (error_of_map hf)).2
  | revoke a =>
    obtain ⟨f, hf⟩ := h
    exact (c.revokeEdge_of_error (error_of_map hf)).2.2
  | slash target reason evidence =>
    obtain ⟨f, hf⟩ := h
    exact (c.slash_of_error (error_of_map hf)).2
  | verify proof sender receiver => exact c.verify_of_ne_valid h
  | advance t => exact congrArg Prod.snd (c.advance_of_le h.1 h.2)
  | tick reading =>
    obtain ⟨f, hf⟩ := h
    cases hf
  | _ => rfl

theorem run_of_refuses {op : Operation α} (h : c.Refuses op) (later : List (Operation α)) :
    c.run (op :: later) = ((c.step op).1 :: (c.run later).1, (c.run later).2) := by
  have hrun : c.run (op :: later) = ((c.step op).1 :: ((c.step op).2.run later).1,
    ((c.step op).2.run later).2) := rfl
  rw [hrun, c.step_of_refuses h]

/-- **A request that fails leaves the whole context as it was**, and so all that is asked later. -/
theorem refusal_atomic (c : Context α) :
    (∀ bytes f, (c.register bytes).1 = .error f →
      (f = .malformedIdentity bytes.length ∧ bytes.length ≠ 32 ∨ f = .nodeSpaceExhausted) ∧
        (c.register bytes : Except (Fault α) NodeId × Context α).2 = c) ∧
    (∀ e f, (c.addEdge e).1 = .error f → e.fault? = some f ∧ (c.addEdge e).2 = c) ∧
    (∀ a f, (c.revokeEdge a).1 = .error f →
      f = .edgeNotFound a.source a.target ∧ c.lookupEdge a = none ∧ (c.revokeEdge a).2 = c) ∧
    (∀ proof sender receiver, (c.verify proof sender receiver).1 ≠ .valid →
      (c.verify proof sender receiver).2 = c) ∧
    (∀ target reason evidence f, (c.slash target reason evidence).1 = .error f →
      (f = .malformedIdentity target.length ∧ target.length ≠ 32 ∨
        f = .invalidSlashReason reason) ∧ (c.slash target reason evidence).2 = c) ∧
    (∀ t, c.clock.mode = .logical → t ≤ c.now → c.advance t = (c.now, c)) ∧
    ∀ op, c.Refuses op → (c.step op).2 = c ∧ ∀ later,
      c.run (op :: later) = ((c.step op).1 :: (c.run later).1, (c.run later).2) :=
  ⟨fun _ _ => c.register_of_error, fun _ _ => c.addEdge_of_error,
    fun _ _ => c.revokeEdge_of_error, fun _ _ _ => c.verify_of_ne_valid,
    fun _ _ _ _ => c.slash_of_error, fun _ hlogical => c.advance_of_le hlogical,
    fun _ h => ⟨c.step_of_refuses h, c.run_of_refuses h⟩⟩

/-! ## Refusals of every kind -/

section Settled

/-- Two agents and an edge that was revoked and put back, with a spent nonce. -/
def settled : Context Float := ((ofConfig Identity.preferred Config.default 0).run revival).2

/-- An edge above the highest level. -/
def towering : Edge Float := ⟨1, 2, 1, 0, 0, 4, 100⟩

/-- Requests of every kind are refused, and the context is as it was. -/
theorem refusal_atomic_settled :
    (settled.register [7]).2 = settled ∧ (settled.addEdge towering).2 = settled ∧
    (settled.revokeEdge ⟨1, 2⟩).2 = settled ∧ (settled.verify oneHop alice bob).1 ≠ .valid ∧
    (settled.verify oneHop alice bob).2 = settled ∧
    (settled.slash alice.bytes 0 alice.octets).2 = settled ∧
    settled.advance 9 = (9, settled) := by
  have hregister : (settled.register [7]).1 = .error (.malformedIdentity 1) := rfl
  have hadd : (settled.addEdge towering).1 = .error (.invalidTrustLevel 4) := by decide +kernel
  have hrevoke : (settled.revokeEdge ⟨1, 2⟩).1 = .error (.edgeNotFound 1 2) := by decide +kernel
  have hverify : (settled.verify oneHop alice bob).1 ≠ .valid := by decide +kernel
  have hslash : (settled.slash alice.bytes 0 alice.octets).1 = .error (.invalidSlashReason 0) := by
    decide +kernel
  have hclock : settled.clock = .logical 9 := by decide +kernel
  have hnow : settled.now = 9 := congrArg Clock.now hclock
  obtain ⟨h₁, h₂, h₃, h₄, h₅, h₆, h₇⟩ := refusal_atomic settled
  refine ⟨(h₁ _ _ hregister).2, (h₂ _ _ hadd).2, (h₃ _ _ hrevoke).2.2, hverify,
    h₄ _ _ _ hverify, (h₅ _ _ _ _ hslash).2, ?_⟩
  rw [h₆ 9 (by rw [hclock]; rfl) (by rw [hnow]; exact UInt64.le_refl 9), hnow]

end Settled

end Context

end WebOfTrust
