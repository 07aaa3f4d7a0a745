import Mathlib
import WebOfTrust.Proofs.Context.Dormant
import WebOfTrust.Proofs.Context.Refusals
import WebOfTrust.Proofs.Slash.Severity

/-!
# Signals of a history

A context numbers the slash signals that it issues from zero on. Nothing else moves that number, so
two signals of one context are never the same, nor are their bytes.

* `Context.signals`: the signals that a history issues; `signals_append`;
* **`step_signals`**: a signal has the next number, and no other step moves that;
* **`run_signals`**: a run numbers its signals in a row; `nodup_signals`;
* `Context.Issued`: what a signal says, by the state in which it is issued;
* **`signals_numbered`**: the signals of a history, and the requests that issue them.
-/

namespace WebOfTrust

variable {α : Type}

namespace Context

/-- The signal that an answer holds. -/
def issued? : Except (Fault α) (Reply α) → Option SlashSignal
  | .ok (.signal s) => some s
  | _ => none

variable [Arith α] [Logarithm α] (c : Context α) (op : Operation α) (ops : List (Operation α))

/-- The signals that a history issues. -/
def signals : List SlashSignal := (c.run ops).1.filterMap issued?

theorem signals_cons :
    c.signals (op :: ops) = (issued? (c.step op).1).toList ++ (c.step op).2.signals ops := by
  have hrun : (c.run (op :: ops)).1 = (c.step op).1 :: ((c.step op).2.run ops).1 := rfl
  rw [signals, hrun, List.filterMap_cons]
  cases issued? (c.step op).1 <;> rfl

theorem signals_append (later : List (Operation α)) :
    c.signals (ops ++ later) = c.signals ops ++ (c.run ops).2.signals later := by
  induction ops generalizing c with
  | nil => rfl
  | cons op ops ih =>
    rw [List.cons_append, signals_cons, signals_cons, ih, List.append_assoc]
    rfl

/-! ## Steps -/

omit [Arith α] [Logarithm α] in
theorem issued?_map_eq_none {β : Type} {g : β → Reply α} (hg : ∀ b, issued? (.ok (g b)) = none)
    (x : Except (Fault α) β) : issued? (x.map g) = none := by
  cases x with
  | error f => rfl
  | ok b => exact hg b

/-- **A step issues the next signal, or leaves its number as it is.** -/
theorem step_signals :
    (∃ target reason evidence s, op = .slash target reason evidence ∧
      (c.step op).1 = .ok (.signal s) ∧ s.nonce = c.slashNonce ∧
      (c.step op).2.slashNonce = c.slashNonce + 1) ∨
    issued? (c.step op).1 = none ∧ (c.step op).2.slashNonce = c.slashNonce := by
  cases op with
  | slash target reason evidence =>
    have hstep : c.step (.slash target reason evidence) =
      ((c.slash target reason evidence).1.map .signal, (c.slash target reason evidence).2) := rfl
    rcases c.slash_cases target reason evidence with
      ⟨-, -, i, why, -, -, hslash⟩ | ⟨-, f, -, hslash⟩
    · rw [hstep, hslash]
      exact .inl ⟨target, reason, evidence, _, rfl, rfl, rfl, rfl⟩
    · rw [hstep, hslash]
      exact .inr ⟨rfl, rfl⟩
  | add e =>
    refine .inr ⟨issued?_map_eq_none (fun _ => rfl) _, ?_⟩
    show (c.addEdge e).2.slashNonce = c.slashNonce
    rw [addEdge_eq]
    cases e.fault? <;> rfl
  | register bytes => exact .inr ⟨issued?_map_eq_none (fun _ => rfl) _, rfl⟩
  | registerIdentity i => exact .inr ⟨issued?_map_eq_none (fun _ => rfl) _, rfl⟩
  | lookup bytes => exact .inr ⟨issued?_map_eq_none (fun _ => rfl) _, rfl⟩
  | revoke a => exact .inr ⟨issued?_map_eq_none (fun _ => rfl) _, rfl⟩
  | trustScore bytes => exact .inr ⟨issued?_map_eq_none (fun _ => rfl) _, rfl⟩
  | evidence node => exact .inr ⟨issued?_map_eq_none (fun _ => rfl) _, rfl⟩
  | _ => exact .inr ⟨rfl, rfl⟩

/-! ## Runs -/

/-- **A run numbers its signals in a row**, as long as the numbers do not run out. -/
theorem run_signals (h : c.slashNonce.toNat + (c.signals ops).length < 2 ^ 64) :
    (c.signals ops).map (·.nonce.toNat) =
      List.range' c.slashNonce.toNat (c.signals ops).length ∧
    (c.run ops).2.slashNonce.toNat = c.slashNonce.toNat + (c.signals ops).length := by
  induction ops generalizing c with
  | nil => exact ⟨rfl, rfl⟩
  | cons op ops ih =>
    have hrun : (c.run (op :: ops)).2 = ((c.step op).2.run ops).2 := rfl
    rw [signals_cons] at h ⊢
    rw [hrun]
    rcases c.step_signals op with
      ⟨target, reason, evidence, s, rfl, hreply, hs, hnext⟩ | ⟨hreply, hnext⟩
    · rw [hreply, issued?, Option.toList_some, List.singleton_append, List.length_cons] at h ⊢
      have hsucc : (c.step (.slash target reason evidence)).2.slashNonce.toNat =
          c.slashNonce.toNat + 1 := by
        rw [hnext, UInt64.toNat_add, UInt64.toNat_one, Nat.mod_eq_of_lt (by omega)]
      obtain ⟨hnonces, hlast⟩ := ih (c.step (.slash target reason evidence)).2 (by omega)
      refine ⟨?_, by omega⟩
      rw [List.map_cons, hnonces, hsucc, hs, List.range'_succ]
    · rw [hreply, Option.toList_none, List.nil_append] at h ⊢
      rw [← hnext] at h ⊢
      exact ih (c.step op).2 h

theorem nodup_signals (h : c.slashNonce.toNat + (c.signals ops).length < 2 ^ 64) :
    ((c.signals ops).map SlashSignal.encode).Nodup := by
  refine List.Nodup.map SlashSignal.encode_injective (List.Nodup.of_map (·.nonce.toNat) ?_)
  rw [(c.run_signals ops h).1]
  exact List.nodup_range'

theorem nonce_of_signals (h : c.slashNonce.toNat + (c.signals ops).length < 2 ^ 64) {i : ℕ}
    {s : SlashSignal} (hs : (c.signals ops)[i]? = some s) :
    s.nonce.toNat = c.slashNonce.toNat + i := by
  have hi : i < (c.signals ops).length := (List.getElem?_eq_some_iff.mp hs).1
  have hmap : ((c.signals ops).map (·.nonce.toNat))[i]? = some s.nonce.toNat := by
    rw [List.getElem?_map, hs, Option.map_some]
  rw [(c.run_signals ops h).1, List.getElem?_range' hi, one_mul] at hmap
  exact (Option.some.inj hmap).symm

variable {c op ops} {k : ℕ} {reply : Except (Fault α) (Reply α)}

theorem Answered.getElem?_signals {s : SlashSignal} (h : c.Answered ops k op (.ok (.signal s))) :
    (c.signals ops)[(c.signals (ops.take k)).length]? = some s := by
  obtain ⟨hk, hop⟩ := List.getElem?_eq_some_iff.mp h.1
  have hdivide : ops = ops.take k ++ op :: ops.drop (k + 1) := by
    rw [← hop, ← List.drop_eq_getElem_cons hk, List.take_append_drop]
  have hsignals : c.signals ops = c.signals (ops.take k) ++
      s :: (((c.run (ops.take k)).2.step op).2.signals (ops.drop (k + 1))) := by
    conv_lhs => rw [hdivide]
    rw [signals_append, signals_cons, ← h.eq_step]
    rfl
  rw [hsignals, List.getElem?_append_right (le_refl _), Nat.sub_self, List.getElem?_cons_zero]

/-! ## What is issued -/

/-- What a signal says, by the state in which it is issued. -/
structure Issued (c : Context α) (target : Bytes) (reason : UInt8) (evidence : Octets 32)
    (s : SlashSignal) : Prop where
  target : s.target.bytes = target
  reason : s.reason.code = reason
  evidence : s.evidence = evidence
  timestamp : s.timestamp = c.now
  unknown : c.registry.lookup s.target = none → s.severity = 0
  known : ∀ node, c.registry.lookup s.target = some node →
    s.severity = severity (c.detect node).score

theorem issued_severityOf {i : Identity} {why : Reason} {evidence : Octets 32} {nonce : UInt64} :
    c.Issued i.bytes why.code evidence ⟨i, why, evidence, c.now, c.severityOf i, nonce⟩ where
  target := rfl
  reason := rfl
  evidence := rfl
  timestamp := rfl
  unknown h := by
    unfold severityOf
    rw [h]
  known node h := by
    unfold severityOf
    rw [h]

/-- **The signals of a context are numbered from zero on**, and no two have the same bytes. -/
theorem signals_numbered (prefer : Identity → NodeId) (config : Config α) (reading : Instant)
    (ops : List (Operation α))
    (hfew : ((ofConfig prefer config reading).signals ops).length < 2 ^ 64) :
    let start := ofConfig prefer config reading
    let after (k : ℕ) := (start.run (ops.take k)).2
    let issuedBefore (k : ℕ) := (start.signals (ops.take k)).length
    (∀ (i : ℕ) (s : SlashSignal), (start.signals ops)[i]? = some s → s.nonce.toNat = i) ∧
    ((start.signals ops).map SlashSignal.encode).Nodup ∧
    (∀ k op s, start.Answered ops k op (.ok (.signal s)) →
      ∃ target reason evidence, op = .slash target reason evidence) ∧
    (∀ k target reason evidence reply,
      start.Answered ops k (.slash target reason evidence) reply →
      (target.length = 32 ∧ reason ∈ [1, 2, 3] → ∃ s, reply = .ok (.signal s) ∧
        (start.signals ops)[issuedBefore k]? = some s ∧ s.nonce.toNat = issuedBefore k ∧
        (after k).Issued target reason evidence s ∧
        after (k + 1) = { after k with slashNonce := (after k).slashNonce + 1 }) ∧
      (¬ (target.length = 32 ∧ reason ∈ [1, 2, 3]) →
        (∃ f, reply = .error f) ∧ after (k + 1) = after k)) ∧
    ∀ [Logarithm ℚ] (c : Context ℚ) (node : NodeId),
      (c.detect node).SeverityLaw (severity (c.detect node).score) := by
  intro start after issuedBefore
  have hzero : start.slashNonce.toNat = 0 := rfl
  have hbound : start.slashNonce.toNat + (start.signals ops).length < 2 ^ 64 := by
    rw [hzero, zero_add]
    exact hfew
  have hnonce (i : ℕ) (s : SlashSignal) (hs : (start.signals ops)[i]? = some s) :
      s.nonce.toNat = i := by
    rw [start.nonce_of_signals ops hbound hs, hzero, zero_add]
  refine ⟨hnonce, start.nodup_signals ops hbound, fun k op s h => ?_,
    fun k target reason evidence reply h => ?_,
    fun c node => c.graph.severityLaw_detect c.config.betrayal node c.now⟩
  · rcases (after k).step_signals op with ⟨target, reason, evidence, -, hop, -⟩ | ⟨hnone, -⟩
    · exact ⟨target, reason, evidence, hop⟩
    · rw [← h.eq_step] at hnone
      cases hnone
  · have hnext : after (k + 1) = ((after k).slash target reason evidence).2 := run_take_succ h.1
    have hreply : reply = ((after k).slash target reason evidence).1.map .signal := h.eq_step
    rcases (after k).slash_cases target reason evidence with
      ⟨hlength, hmem, i, why, rfl, rfl, hslash⟩ | ⟨hnot, f, -, hslash⟩
    · rw [hslash] at hnext hreply
      rw [hreply] at h
      have hplace := h.getElem?_signals
      refine ⟨fun _ => ⟨_, hreply, hplace, hnonce _ _ hplace, issued_severityOf, hnext⟩, ?_⟩
      exact fun hnot => absurd ⟨hlength, hmem⟩ hnot
    · rw [hslash] at hnext hreply
      exact ⟨fun hcan => absurd hcan hnot, fun _ => ⟨⟨f, hreply⟩, hnext⟩⟩

section Reproach

/-- Two agents who distrust each other, and requests for signals against one of them: before it is
known, without a reason, and when the cycle of the two is just critical. -/
def reproach : List (Operation ℚ) :=
  [.slash alice.bytes 1 bob.octets, .slash alice.bytes 0 bob.octets, .registerIdentity alice,
    .add ⟨3246643754, 2416186773, -1 / 2, 5, 0, 3, 100⟩,
    .add ⟨2416186773, 3246643754, -1 / 2, 6, 0, 3, 100⟩, .slash alice.bytes 1 bob.octets]

/-- Two signals are issued, with the numbers 0 and 1 and with severities that tell them apart. -/
theorem signals_numbered_reproach :
    let _ := Graph.aboveOne
    let start := ofConfig Identity.preferred (Config.default : Config ℚ) 0
    (start.signals reproach).length < 2 ^ 64 ∧
    (start.signals reproach).map (fun s => (s.timestamp, s.severity)) = [(0, 0), (6, 230)] ∧
    (∀ (i : ℕ) (s : SlashSignal), (start.signals reproach)[i]? = some s → s.nonce.toNat = i) ∧
    ((start.signals reproach).map SlashSignal.encode).Nodup := by
  intro _ start
  have hsignals : (start.signals reproach).map (fun s => (s.timestamp, s.severity)) =
      [(0, 0), (6, 230)] := by decide +kernel
  have hlength : (start.signals reproach).length = 2 := by
    simpa using congrArg List.length hsignals
  have hfew : (start.signals reproach).length < 2 ^ 64 := by omega
  obtain ⟨hnonces, hnodup, -⟩ :=
    signals_numbered Identity.preferred (Config.default : Config ℚ) 0 reproach hfew
  exact ⟨hfew, hsignals, hnonces, hnodup⟩

end Reproach

end Context

end WebOfTrust
