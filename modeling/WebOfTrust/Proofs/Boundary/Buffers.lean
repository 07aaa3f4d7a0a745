import Mathlib
import WebOfTrust.Proofs.Betrayal.Encoding
import WebOfTrust.Proofs.Betrayal.Soundness
import WebOfTrust.Proofs.Boundary.Respond
import WebOfTrust.Proofs.PathProof.Format
import WebOfTrust.Proofs.Slash.Format

/-!
# Output buffers

A call with an output buffer writes the whole of it when it reports success, and leaves it alone
otherwise. Evidence has a length of its own, whatever the buffer: it is written to the front of a
buffer that has room for all of it, so a caller may ask for the length first.

* `refilled`, `fronted`: what a buffer holds after a call;
* `Context.evidenceBytes`: the bytes of the evidence from a node; `length_evidenceBytes`;
* `Host.call_register`, `Host.call_identityOf`, `Host.call_slash`, `Host.call_evidence`: the answers
  on a live handle;
* **`Host.buffers_filled`**: all of it.
-/

namespace WebOfTrust

variable {α : Type}

/-! ## What is written -/

/-- What a buffer holds when something was written over all of it, if anything was. -/
def refilled {β : Type} (written out : Option β) : Option β :=
  out.map fun before => written.getD before

/-- What a buffer holds when bytes were written to its front, if there are any and it has room. -/
def fronted (bytes buffer : Bytes) : Bytes :=
  if 0 < bytes.length ∧ bytes.length ≤ buffer.length then bytes ++ buffer.drop bytes.length
  else buffer

theorem fronted_eq (bytes buffer : Bytes) : fronted bytes buffer =
    if bytes.length ≤ buffer.length then overwrite buffer bytes else buffer := by
  unfold fronted overwrite
  by_cases hpos : 0 < bytes.length
  · simp only [hpos, true_and]
  · have hnil : bytes = [] := List.length_eq_zero_iff.mp (by omega)
    simp [hnil]

@[simp] theorem map_fronted_nil (out : Option Bytes) : out.map (fronted []) = out := by
  cases out <;> rfl

theorem overwrite_of_length {buffer bytes : Bytes} (h : buffer.length = bytes.length) :
    overwrite buffer bytes = bytes := by
  rw [overwrite, List.drop_eq_nil_of_le h.le, List.append_nil]

namespace Context

variable [Arith α] [WordForm α] (c : Context α) {node : NodeId}

/-- The bytes of the evidence from a node; none if there is no evidence, or too much for bytes. -/
def evidenceBytes (node : NodeId) : Bytes :=
  match c.evidence node with
  | .ok e => e.encode.toOption.getD []
  | .error _ => []

variable {c}

theorem evidenceBytes_of_encode {e : Evidence α} {bytes : Bytes} (he : c.evidence node = .ok e)
    (h : e.encode = .ok bytes) : c.evidenceBytes node = bytes := by
  rw [evidenceBytes, he]
  simp only [h]
  rfl

theorem evidenceBytes_of_error {f : Fault α} (h : c.evidence node = .error f) :
    c.evidenceBytes node = [] := by
  rw [evidenceBytes, h]

theorem evidenceBytes_of_encode_error {e : Evidence α} {f : Fault α}
    (he : c.evidence node = .ok e) (h : e.encode = .error f) : c.evidenceBytes node = [] := by
  rw [evidenceBytes, he]
  simp only [h]
  rfl

theorem length_evidenceBytes {e : Evidence α} (he : c.evidence node = .ok e) :
    (c.evidenceBytes node).length =
      if e.edges.length ≤ 65535 then 2 + 24 * e.edges.length else 0 := by
  split_ifs with hcount
  · obtain ⟨bytes, hbytes⟩ := e.exists_encode_iff.mpr hcount
    rw [evidenceBytes_of_encode he hbytes, Evidence.length_of_encode hbytes]
  · rw [evidenceBytes, he]
    simp only [Evidence.encode, if_pos (not_le.mp hcount)]
    rfl

theorem length_evidenceBytes_lt (c : Context α) (node : NodeId) :
    (c.evidenceBytes node).length < 2 ^ 32 := by
  cases he : c.evidence node with
  | error f =>
    rw [evidenceBytes_of_error he]
    exact Nat.two_pow_pos 32
  | ok e =>
    rw [length_evidenceBytes he]
    split_ifs <;> omega

end Context

/-! ## Calls on a live handle -/

namespace Host

variable [Arith α] [Logarithm α] [WordForm α] [Literal α] {h : Host α} {handle : Handle}
  {c : Context α}

theorem call_register (hc : h.context? handle = some c) (i : Option Identity)
    (out : Option NodeId) :
    let written := i.bind fun i => (c.register i.bytes).1.toOption
    (h.call (.register handle i out)).1 =
      .node (written.isSome && out.isSome) (refilled written out) := by
  show (h.register handle i out).1 = _
  cases i with
  | none => cases out <;> rfl
  | some i =>
    cases out with
    | none => simp [Host.register, refilled]
    | some before =>
      rw [Host.register, serve_of_live hc, Option.bind_some]
      rcases c.register i.bytes with ⟨_ | _, c'⟩ <;> rfl

theorem call_identityOf (hc : h.context? handle = some c) (node : NodeId) (out : Option Bytes)
    (hout : ∀ buffer ∈ out, buffer.length = 32) :
    let written := (c.registry.identityOf node).map Identity.bytes
    h.call (.identityOf handle node out) =
      (.identity (written.isSome && out.isSome) (refilled written out), h) := by
  show h.identityOf handle node out = _
  cases out with
  | none => simp [Host.identityOf, refilled]
  | some buffer =>
    rw [Host.identityOf, serve_of_live hc]
    cases c.registry.identityOf node with
    | none => rw [replace_self hc]; rfl
    | some i =>
      have hlength : buffer.length = i.bytes.length := (hout buffer rfl).trans i.length_bytes.symm
      simp only [overwrite_of_length hlength, replace_self hc]
      rfl

theorem call_slash (hc : h.context? handle = some c) (target : Option Identity) (reason : UInt8)
    (evidence : Option (Octets 32)) (out : Option Bytes)
    (hout : ∀ buffer ∈ out, buffer.length = 82) :
    let written := target.bind fun target => evidence.bind fun evidence =>
      (c.slash target.bytes reason evidence).1.toOption.map SlashSignal.encode
    (h.call (.slash handle target reason evidence out)).1 =
      .signal (if written.isSome && out.isSome then 0 else -1) (refilled written out) := by
  show (h.slash handle target reason evidence out).1 = _
  cases target with
  | none => cases out <;> rfl
  | some target =>
    cases evidence with
    | none => cases out <;> rfl
    | some evidence =>
      cases out with
      | none => simp [Host.slash, refilled]
      | some buffer =>
        rw [Host.slash, serve_of_live hc, Option.bind_some, Option.bind_some]
        rcases c.slash target.bytes reason evidence with ⟨_ | signal, c'⟩
        · rfl
        · have hlength : buffer.length = signal.encode.length :=
            (hout buffer rfl).trans signal.length_encode.symm
          simp only [overwrite_of_length hlength]
          rfl

theorem call_evidence (hc : h.context? handle = some c) (node : NodeId) (out : Option Bytes) :
    h.call (.evidence handle node out) =
      (.evidence (c.evidenceBytes node).length (out.map (fronted (c.evidenceBytes node))), h) := by
  show h.evidence handle node out = _
  rw [Host.evidence, serve_of_live hc]
  cases he : c.evidence node with
  | error f =>
    rw [Context.evidenceBytes_of_error he, map_fronted_nil]
    simp only [replace_self hc]
    rfl
  | ok e =>
    cases hbytes : e.encode with
    | error f =>
      rw [Context.evidenceBytes_of_encode_error he hbytes, map_fronted_nil]
      simp only [hbytes, replace_self hc]
      rfl
    | ok bytes =>
      have hfronted : fronted bytes = fun buffer =>
          if bytes.length ≤ buffer.length then overwrite buffer bytes else buffer :=
        funext (fronted_eq bytes)
      rw [Context.evidenceBytes_of_encode he hbytes, hfronted]
      simp only [hbytes, replace_self hc]

/-- **A buffer is written as a whole, at its front, or not at all**, on a live handle. -/
theorem buffers_filled (hc : h.context? handle = some c) :
    (∀ i out,
      let written := i.bind fun i => (c.register i.bytes).1.toOption
      (h.call (.register handle i out)).1 =
        .node (written.isSome && out.isSome) (refilled written out)) ∧
    (∀ node out, (∀ buffer ∈ out, buffer.length = 32) →
      let written := (c.registry.identityOf node).map Identity.bytes
      (∀ bytes ∈ written, bytes.length = 32) ∧
      h.call (.identityOf handle node out) =
        (.identity (written.isSome && out.isSome) (refilled written out), h)) ∧
    (∀ target reason evidence out, (∀ buffer ∈ out, buffer.length = 82) →
      let written := target.bind fun target => evidence.bind fun evidence =>
        (c.slash target.bytes reason evidence).1.toOption.map SlashSignal.encode
      (∀ bytes ∈ written, bytes.length = 82) ∧
      (h.call (.slash handle target reason evidence out)).1 =
        .signal (if written.isSome && out.isSome then 0 else -1) (refilled written out)) ∧
    ∀ node,
      let bytes := c.evidenceBytes node
      (∀ f, c.evidence node = .error f → bytes.length = 0) ∧
      (∀ e, c.evidence node = .ok e →
        bytes.length = (if e.edges.length ≤ 65535 then 2 + 24 * e.edges.length else 0) ∧
        ∀ encoded, e.encode = .ok encoded → bytes = encoded) ∧
      bytes.length < 2 ^ 32 ∧
      ∀ out, h.call (.evidence handle node out) =
        (.evidence bytes.length (out.map (fronted bytes)), h) := by
  refine ⟨call_register hc, fun node out hout => ⟨?_, call_identityOf hc node out hout⟩,
    fun target reason evidence out hout => ⟨?_, call_slash hc target reason evidence out hout⟩,
    fun node => ⟨fun f hf => ?_, fun e he => ⟨Context.length_evidenceBytes he,
      fun encoded => Context.evidenceBytes_of_encode he⟩, c.length_evidenceBytes_lt node,
      call_evidence hc node⟩⟩
  · intro bytes hbytes
    obtain ⟨i, -, rfl⟩ := Option.mem_map.mp hbytes
    exact i.length_bytes
  · intro bytes hbytes
    obtain ⟨i, -, hbytes⟩ := Option.bind_eq_some_iff.mp hbytes
    obtain ⟨digest, -, hbytes⟩ := Option.bind_eq_some_iff.mp hbytes
    obtain ⟨signal, -, rfl⟩ := Option.map_eq_some_iff.mp hbytes
    exact signal.length_encode
  · rw [Context.evidenceBytes_of_error hf, List.length_nil]

section Mutual

/-- A context in which two nodes have betrayed each other. -/
def mutualContext : Context Float :=
  { Context.ofConfig Identity.preferred Config.default 0 with
    graph := mutualBetrayal
    clock := .logical 4 }

theorem length_edges_mutualContext :
    ∃ e, mutualContext.evidence 2 = .ok e ∧ e.edges.length = 2 := by
  have htwo : (mutualContext.evidence 2).toOption.map (·.edges.length) = some 2 := by
    decide +kernel
  cases he : mutualContext.evidence 2 with
  | error f =>
    rw [he] at htwo
    cases htwo
  | ok e =>
    rw [he] at htwo
    exact ⟨e, rfl, Option.some.inj htwo⟩

/-- An identity is registered and read back, a signal is written, and evidence where it fits. -/
theorem buffers_filled_mutual :
    let h : Host Float := ⟨Identity.preferred, [some mutualContext]⟩
    let seven (n : ℕ) : Bytes := List.replicate n 7
    let agent : Identity := ⟨⟨seven 32, rfl⟩⟩
    let registration := h.call (.register (.slot 0) (some agent) (some 0))
    let evidence out := (h.call (.evidence (.slot 0) 2 out)).1
    h.context? (.slot 0) = some mutualContext ∧
    h.call (.identityOf (.slot 0) 2 (some (seven 32))) = (.identity false (some (seven 32)), h) ∧
    registration.1 = .node true (some agent.preferred) ∧
    (registration.2.call (.identityOf (.slot 0) agent.preferred (some (List.replicate 32 0)))).1 =
      .identity true (some (seven 32)) ∧
    (∃ bytes : Bytes, bytes.length = 82 ∧
      (h.call (.slash (.slot 0) (some agent) 1 (some ⟨seven 32, rfl⟩) (some (seven 82)))).1 =
        .signal 0 (some bytes)) ∧
    evidence none = .evidence 50 none ∧
    evidence (some (seven 49)) = .evidence 50 (some (seven 49)) ∧
    ∃ bytes : Bytes, bytes.length = 50 ∧
      evidence (some (seven 51)) = .evidence 50 (some (bytes ++ [7])) := by
  intro h seven agent registration evidence
  have hc : h.context? (.slot 0) = some mutualContext := rfl
  obtain ⟨hregister, hidentity, hslash, hevidence⟩ := buffers_filled hc
  refine ⟨hc, (hidentity 2 (some (seven 32)) (by simp [seven])).2, ?_, ?_, ?_, ?_⟩
  · have hnode : (mutualContext.register agent.bytes).1.toOption = some agent.preferred := by
      decide +kernel
    rw [hregister (some agent) (some 0), Option.bind_some, hnode]
    rfl
  · have hnext : registration.2.context? (.slot 0) =
        some (mutualContext.register agent.bytes).2 := by
      have hcall : registration = _ := call_of_live hc rfl nofun
      rw [hcall, context?_replace hc, if_pos rfl]
      rfl
    obtain ⟨-, hread, -⟩ := buffers_filled hnext
    have hagent : (mutualContext.register agent.bytes).2.registry.identityOf agent.preferred =
        some agent := by decide +kernel
    have hcall := (hread agent.preferred (some (List.replicate 32 0)) (by simp)).2
    rw [hagent] at hcall
    exact congrArg Prod.fst hcall
  · have hsome : (mutualContext.slash (seven 32) 1 ⟨seven 32, rfl⟩).1.toOption.isSome = true := by
      decide +kernel
    obtain ⟨signal, hsignal⟩ := Option.isSome_iff_exists.mp hsome
    have hcall := (hslash (some agent) 1 (some ⟨seven 32, rfl⟩) (some (seven 82))
      (by simp [seven])).2
    rw [Option.bind_some, Option.bind_some, Identity.bytes, hsignal] at hcall
    exact ⟨signal.encode, signal.length_encode, hcall⟩
  · obtain ⟨e, he, hcount⟩ := length_edges_mutualContext
    obtain ⟨-, hedges, -, hcall⟩ := hevidence 2
    have hlength : (mutualContext.evidenceBytes 2).length = 50 := by
      rw [(hedges e he).1, hcount]
      rfl
    have hanswer (out : Option Bytes) :
        evidence out = .evidence 50 (out.map (fronted (mutualContext.evidenceBytes 2))) := by
      rw [← hlength]
      exact congrArg Prod.fst (hcall out)
    refine ⟨hanswer none, ?_, _, hlength, ?_⟩
    · rw [hanswer, Option.map_some, fronted, hlength, List.length_replicate]
      rfl
    · rw [hanswer, Option.map_some, fronted, hlength, List.length_replicate]
      rfl

end Mutual

end Host

end WebOfTrust
