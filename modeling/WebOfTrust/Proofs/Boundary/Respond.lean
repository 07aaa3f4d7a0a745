import Mathlib
import WebOfTrust.Boundary.Call
import WebOfTrust.Context.Run

/-!
# Calls and their contexts

A call on a live handle asks the context for one operation, unless a pointer that it needs is null,
and is answered from the reply. A call on a handle without a context is answered by its value for
failure. No call touches the context of another handle.

* `Call.handle?`, `Call.operation?`, `Call.failure`, `Call.success?`: what a call is about;
* `Context.respond`, `Context.tick`: a call to a single context, and the wall clock for it;
* `Host.context?_replace`, `Host.context?_lend`, `Host.context?_refresh`: what the handles hold;
* **`Host.call_of_live`**, **`Host.call_of_dead`**: a call answers as its context alone would, or
  fails and changes nothing.
-/

namespace WebOfTrust

variable {α : Type}

/-! ## What a call asks for -/

namespace Call

/-- The handle that a call is made on. -/
def handle? : Call α → Option Handle
  | .init .. => none
  | .deinit handle | .advance handle _ | .addEdge handle _ | .revokeEdge handle _
  | .register handle _ _ | .identityOf handle _ _ | .trustScore handle _ | .reputation handle _
  | .detect handle _ | .evidence handle _ _ | .slash handle _ _ _ _ | .verify handle _ _ _ =>
    some handle

/-- The operation that a call asks for, if no pointer that it needs is null. -/
def operation? : Call α → Option (Operation α)
  | .advance _ t => some (.advance t)
  | .addEdge _ (some e) => some (.add e)
  | .revokeEdge _ a => some (.revoke a)
  | .register _ (some i) (some _) => some (.register i.bytes)
  | .identityOf _ node (some _) => some (.identityOf node)
  | .trustScore _ (some bytes) => some (.trustScore bytes)
  | .reputation _ node => some (.reputation node)
  | .detect _ node => some (.detect node)
  | .evidence _ node _ => some (.evidence node)
  | .slash _ (some target) reason (some digest) (some _) =>
    some (.slash target.bytes reason digest)
  | .verify _ (some proof) (some sender) (some receiver) => some (.verify proof sender receiver)
  | _ => none

variable [Arith α]

/-- What stands for the failure of a call, with its buffer as it was. -/
def failure : Call α → Answer α
  | .init .. => .handle .null
  | .deinit _ => .nothing
  | .advance .. => .code (-1)
  | .addEdge .. => .code (-1)
  | .revokeEdge .. => .code (-2)
  | .register _ _ out => .node false out
  | .identityOf _ _ out => .identity false out
  | .trustScore .. => .score (-1)
  | .reputation .. => .score (-1)
  | .detect _ node => .anomaly (.clean node)
  | .evidence _ _ out => .evidence 0 out
  | .slash _ _ _ _ out => .signal (-1) out
  | .verify .. => .verdict .invalidEndpoints

variable [WordForm α]

/-- What comes back with the reply to the operation of a call, if that is a success. -/
def success? : Call α → Reply α → Option (Answer α)
  | .advance .., .time _ => some (.code 0)
  | .addEdge .., .done => some (.code 0)
  | .revokeEdge .., .edge _ => some (.code 0)
  | .register .., .node n => some (.node true (some n))
  | .identityOf _ _ (some buffer), .identity? (some i) =>
    some (.identity true (some (overwrite buffer i.bytes)))
  | .trustScore .., .value x => some (.score x)
  | .reputation .., .reputation r => some (.score r.score)
  | .detect .., .anomaly a => some (.anomaly a)
  | .evidence _ _ out, .evidence e =>
    e.encode.toOption.map fun bytes => .evidence bytes.length (out.map fun buffer =>
      if bytes.length ≤ buffer.length then overwrite buffer bytes else buffer)
  | .slash _ _ _ _ (some buffer), .signal s =>
    some (.signal 0 (some (overwrite buffer s.encode)))
  | .verify .., .verdict v => some (.verdict v)
  | _, _ => none

/-- What comes back with the reply to the operation of a call. -/
def answer (call : Call α) : Except (Fault α) (Reply α) → Answer α
  | .ok reply => (call.success? reply).getD call.failure
  | .error _ => call.failure

end Call

/-! ## The settings of a text -/

namespace Config

variable [Arith α] [Literal α]

theorem flaw?_of_read {text : String} {c : Config α} (h : read text = .ok c) :
    c.flaw? = none := by
  unfold read at h
  split at h
  · cases h
  · split at h
    · cases h
    next hflaw =>
      cases h
      exact hflaw

variable (α) in
theorem flaw?_readOrDefault (text : Option String) :
    (readOrDefault text : Config α).flaw? = none ∨ (readOrDefault text : Config α) = default := by
  cases text with
  | none => exact .inr rfl
  | some text =>
    cases hread : (read text : Except (Refusal α) (Config α)) with
    | error refusal => exact .inr (by simp only [readOrDefault, hread])
    | ok c => exact .inl (by simp only [readOrDefault, hread, flaw?_of_read hread])

end Config

/-! ## Calls to a single context -/

/-- The context when the wall clock shows a time. -/
def Context.tick (c : Context α) (reading : Instant) : Context α :=
  { c with clock := c.clock.refresh reading }

theorem Context.tick_tick (c : Context α) (s t : Instant) : (c.tick s).tick t = c.tick t := by
  obtain ⟨prefer, config, registry, graph, clock, nonce⟩ := c
  cases clock <;> rfl

variable [Arith α] [Logarithm α] [WordForm α]

/-- The answer of a single context to a call, and the context after it. -/
def Context.respond (c : Context α) (call : Call α) : Answer α × Context α :=
  match call.operation? with
  | some op => (call.answer (c.step op).1, (c.step op).2)
  | none => (call.failure, c)

/-! ## What the handles hold -/

namespace Host

variable {h : Host α} {handle other : Handle} {c : Context α}

omit [Arith α] [Logarithm α] [WordForm α]

theorem serve_of_live {β : Type} (hc : h.context? handle = some c) (failure : β)
    (request : Context α → β × Context α) :
    h.serve handle failure request = ((request c).1, h.replace handle (some (request c).2)) := by
  rw [serve, hc]

theorem serve_of_dead {β : Type} (hc : h.context? handle = none) (failure : β)
    (request : Context α → β × Context α) : h.serve handle failure request = (failure, h) := by
  rw [serve, hc]

theorem exists_slot (hc : h.context? handle = some c) :
    ∃ n, handle = .slot n ∧ h.slots[n]? = some (some c) := by
  cases handle with
  | null => cases hc
  | foreign => cases hc
  | slot n => exact ⟨n, rfl, Option.join_eq_some_iff.mp hc⟩

theorem replace_self (hc : h.context? handle = some c) : h.replace handle (some c) = h := by
  obtain ⟨n, rfl, hn⟩ := exists_slot hc
  obtain ⟨hlt, hget⟩ := List.getElem?_eq_some_iff.mp hn
  show ({ h with slots := h.slots.set n (some c) } : Host α) = h
  rw [← hget, List.set_getElem_self]

theorem context?_replace (hc : h.context? handle = some c) (c' : Option (Context α)) :
    (h.replace handle c').context? other = if other = handle then c' else h.context? other := by
  obtain ⟨n, rfl, hn⟩ := exists_slot hc
  obtain ⟨hlt, -⟩ := List.getElem?_eq_some_iff.mp hn
  cases other with
  | null => rfl
  | foreign => rfl
  | slot m =>
    show ((h.slots.set n c')[m]?).join = if Handle.slot m = .slot n then c' else (h.slots[m]?).join
    simp only [List.getElem?_set, Handle.slot.injEq]
    by_cases hm : n = m
    · rw [if_pos hm, if_pos hm.symm, if_pos hlt]
      rfl
    · rw [if_neg hm, if_neg (Ne.symm hm)]

theorem context?_lend (c : Context α) :
    (h.lend c).2.context? other =
      if other = .slot h.slots.length then some c else h.context? other := by
  cases other with
  | null => rfl
  | foreign => rfl
  | slot m =>
    show ((h.slots ++ [some c])[m]?).join = if Handle.slot m = _ then some c else (h.slots[m]?).join
    simp only [Handle.slot.injEq]
    rcases Nat.lt_trichotomy m h.slots.length with hm | rfl | hm
    · rw [List.getElem?_append_left hm, if_neg hm.ne]
    · rw [List.getElem?_concat_length, if_pos rfl]
      rfl
    · rw [List.getElem?_eq_none (by simp; omega), if_neg hm.ne', List.getElem?_eq_none hm.le]

theorem context?_refresh (t : Instant) :
    (h.refresh t).context? handle = (h.context? handle).map (·.tick t) := by
  cases handle with
  | null => rfl
  | foreign => rfl
  | slot n =>
    show ((h.slots.map _)[n]?).join = ((h.slots[n]?).join).map _
    rw [List.getElem?_map]
    rcases h.slots[n]? with _ | _ | c <;> rfl

/-! ## Calls on a handle -/

variable [Arith α] [Logarithm α] [WordForm α] [Literal α] {call : Call α}

theorem call_eq_serve {op : Operation α} (hcall : call.handle? = some handle)
    (hop : call.operation? = some op) :
    h.call call =
      h.serve handle call.failure fun c => (call.answer (c.step op).1, (c.step op).2) := by
  cases call with
  | init text reading => cases hcall
  | deinit other => cases hop
  | advance other t => cases hcall; cases hop; rfl
  | addEdge other e =>
    cases e <;> cases hcall <;> cases hop
    refine congrArg (h.serve handle _) (funext fun c => ?_)
    dsimp only [Context.step]
    rcases c.addEdge _ with ⟨_ | _, c'⟩ <;> rfl
  | revokeEdge other a =>
    cases hcall
    cases hop
    refine congrArg (h.serve handle _) (funext fun c => ?_)
    dsimp only [Context.step]
    rcases c.revokeEdge a with ⟨_ | _, c'⟩ <;> rfl
  | register other i out =>
    cases i <;> cases out <;> cases hcall <;> cases hop
    refine congrArg (h.serve handle _) (funext fun c => ?_)
    dsimp only [Context.step]
    rcases c.register _ with ⟨_ | _, c'⟩ <;> rfl
  | identityOf other node out =>
    cases out <;> cases hcall <;> cases hop
    refine congrArg (h.serve handle _) (funext fun c => ?_)
    dsimp only [Context.step]
    cases c.registry.identityOf node <;> rfl
  | trustScore other bytes =>
    cases bytes <;> cases hcall <;> cases hop
    refine congrArg (h.serve handle _) (funext fun c => ?_)
    dsimp only [Context.step]
    cases c.trustScore _ <;> rfl
  | reputation other node => cases hcall; cases hop; rfl
  | detect other node => cases hcall; cases hop; rfl
  | evidence other node out =>
    cases hcall
    cases hop
    refine congrArg (h.serve handle _) (funext fun c => ?_)
    dsimp only [Context.step]
    cases c.evidence node with
    | error f => rfl
    | ok e =>
      have hencode : (Call.evidence handle node out).success? (.evidence e) =
          e.encode.toOption.map fun bytes => .evidence bytes.length (out.map fun buffer =>
            if bytes.length ≤ buffer.length then overwrite buffer bytes else buffer) := rfl
      dsimp only [Except.map, Call.answer]
      rw [hencode]
      cases e.encode <;> rfl
  | slash other target reason digest out =>
    cases target <;> cases digest <;> cases out <;> cases hcall <;> cases hop
    refine congrArg (h.serve handle _) (funext fun c => ?_)
    dsimp only [Context.step]
    rcases c.slash _ reason _ with ⟨_ | _, c'⟩ <;> rfl
  | verify other proof sender receiver =>
    cases proof <;> cases sender <;> cases receiver <;> cases hcall <;> cases hop
    rfl

/-- A call with a null pointer, of those that it needs, fails before it looks at its handle. -/
theorem call_of_null (hcall : call.handle? = some handle) (hop : call.operation? = none)
    (hkeep : call ≠ .deinit handle) : h.call call = (call.failure, h) := by
  cases call with
  | init text reading => cases hcall
  | deinit other =>
    cases hcall
    exact absurd rfl hkeep
  | addEdge other e => cases e <;> cases hop; rfl
  | register other i out => cases i <;> cases out <;> cases hop <;> rfl
  | identityOf other node out => cases out <;> cases hop; rfl
  | trustScore other bytes => cases bytes <;> cases hop; rfl
  | slash other target reason digest out =>
    cases target <;> cases digest <;> cases out <;> cases hop <;> rfl
  | verify other proof sender receiver =>
    cases proof <;> cases sender <;> cases receiver <;> cases hop <;> rfl
  | _ => cases hop

/-- **A call on a live handle answers as its context alone would.** -/
theorem call_of_live (hc : h.context? handle = some c) (hcall : call.handle? = some handle)
    (hkeep : call ≠ .deinit handle) :
    h.call call = ((c.respond call).1, h.replace handle (some (c.respond call).2)) := by
  unfold Context.respond
  cases hop : call.operation? with
  | some op => exact (call_eq_serve hcall hop).trans (serve_of_live hc _ _)
  | none => rw [call_of_null hcall hop hkeep, replace_self hc]

/-- **A call on a handle without a context fails and changes nothing.** -/
theorem call_of_dead (hc : h.context? handle = none) (hcall : call.handle? = some handle) :
    h.call call = (call.failure, h) := by
  by_cases hkeep : call = .deinit handle
  · subst hkeep
    refine Prod.ext rfl ?_
    show h.release handle = h
    rw [release, isLive, hc]
    rfl
  · cases hop : call.operation? with
    | some op => exact (call_eq_serve hcall hop).trans (serve_of_dead hc _ _)
    | none => exact call_of_null hcall hop hkeep

theorem call_deinit (hc : h.context? handle = some c) :
    h.call (.deinit handle) = (.nothing, h.replace handle none) := by
  refine Prod.ext rfl ?_
  show h.release handle = _
  rw [release, isLive, hc]
  rfl

theorem call_init (text : Option String) (reading : Instant) :
    h.call (.init text reading) = (.handle (.slot h.slots.length),
      (h.lend (.ofConfig h.prefer (Config.readOrDefault text) reading)).2) := by
  show h.init text reading = _
  unfold init Context.create?
  rcases Config.flaw?_readOrDefault α text with hflaw | hdefault
  · rw [hflaw]
    rfl
  · rw [hdefault]
    cases (Config.default : Config α).flaw? <;> rfl

end Host

end WebOfTrust
