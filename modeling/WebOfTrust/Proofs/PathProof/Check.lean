import Mathlib
import WebOfTrust.PathProof.Verdict
import WebOfTrust.Proofs.Graph.Records

/-!
# What a valid proof satisfies

The tests on a path proof, taken together, and what verification does to the spent nonces.

* `fresh_iff`, `recordsAlong_eq_some_iff`: the two tests that walk along the hops;
* **`check_eq_ok_iff`**: when a proof passes all tests;
* `evaluate_eq_valid_iff`, `verify_snd`: the verdict and the graph after it, by the tests;
* **`spent_spendAll`**: the nonces that are spent after a verification.
-/

namespace WebOfTrust

variable {α : Type}

namespace PathProof

theorem decode_hops_ne_nil {maxHops : ℕ} {bytes : Bytes} {p : PathProof}
    (h : decode maxHops bytes = .ok p) : p.hops ≠ [] := by
  unfold decode at h
  dsimp only at h
  split_ifs at h with h₁ h₂ h₃ h₄
  cases h
  cases hc : LittleEndian.read bytes 65 2 with
  | zero => exact absurd (.inl hc) h₃
  | succ n => simp [Hop.decodeList]

theorem fresh_iff (before : List Hop) (l : List (Hop × Record α)) :
    fresh before l = true ↔ (l.map Prod.fst).Nodup ∧ ∀ x ∈ l,
      x.2.edge.nonce ≤ x.1.nonce ∧ ¬ x.2.isSpent x.1.nonce = true ∧ x.1 ∉ before := by
  induction l generalizing before with
  | nil => simp [fresh]
  | cons x rest ih =>
    obtain ⟨h, r⟩ := x
    rw [List.forall_mem_cons]
    simp only [fresh, Bool.and_eq_true, decide_eq_true_eq, Bool.not_eq_true', ih, List.map_cons,
      List.nodup_cons, List.mem_map, List.mem_cons, not_or, Bool.not_eq_true]
    constructor
    · rintro ⟨⟨⟨hle, hs⟩, hb⟩, hnd, hall⟩
      refine ⟨⟨?_, hnd⟩, ⟨hle, hs, hb⟩, fun x hx => ?_⟩
      · rintro ⟨x, hx, rfl⟩
        exact (hall x hx).2.2.1 rfl
      · exact ⟨(hall x hx).1, (hall x hx).2.1, (hall x hx).2.2.2⟩
    · rintro ⟨⟨hn, hnd⟩, ⟨hle, hs, hb⟩, hall⟩
      refine ⟨⟨⟨hle, hs⟩, hb⟩, hnd, fun x hx => ?_⟩
      exact ⟨(hall x hx).1, (hall x hx).2.1, fun e => hn ⟨x, hx, e⟩, (hall x hx).2.2⟩

end PathProof

namespace Graph

variable {g : Graph α}

theorem recordsAlong_eq_some_iff {hops : List Hop} {records : List (Record α)} :
    g.recordsAlong hops = some records ↔
      List.Forall₂ (fun h r => g.record? h.arc = some r) hops records := by
  induction hops generalizing records with
  | nil => simp [recordsAlong, eq_comm]
  | cons h rest ih =>
    rw [recordsAlong]
    constructor
    · intro heq
      split at heq
      next r rs hr hrs =>
        cases heq
        exact .cons hr (ih.mp hrs)
      next => cases heq
    · rintro (_ | ⟨hr, hrs⟩)
      rw [hr, ih.mpr hrs]

theorem recordsAlong_eq_none_iff {hops : List Hop} :
    g.recordsAlong hops = none ↔ ∃ h ∈ hops, g.record? h.arc = none := by
  induction hops with
  | nil => simp [recordsAlong]
  | cons h rest ih =>
    rw [recordsAlong, List.exists_mem_cons_iff, ← ih]
    cases g.record? h.arc <;> cases g.recordsAlong rest <;> simp

variable {registry : Registry} {maxHops : ℕ} {bytes : Bytes} {sender receiver : Identity}
  {now : Instant}

/-- A hop may be taken: its edge is live, and its nonce is neither too low nor spent. -/
def Admits (g : Graph α) (now : Instant) (h : Hop) : Prop :=
  ∃ r, g.record? h.arc = some r ∧ r.isLive now = true ∧ r.edge.nonce ≤ h.nonce ∧
    ¬ r.isSpent h.nonce = true

theorem Admits.not_spent {h : Hop} (ha : g.Admits now h) : ¬ g.Spent h.arc h.nonce := by
  obtain ⟨r, hr, -, -, hs⟩ := ha
  rintro ⟨r', hr', hs'⟩
  cases hr.symm.trans hr'
  exact hs hs'

theorem forall_admits_iff {hops : List Hop} {records : List (Record α)}
    (h : List.Forall₂ (fun h r => g.record? h.arc = some r) hops records) :
    (∀ h ∈ hops, g.Admits now h) ↔ (∀ r ∈ records, r.isLive now = true) ∧
      ∀ x ∈ hops.zip records, x.2.edge.nonce ≤ x.1.nonce ∧ ¬ x.2.isSpent x.1.nonce = true := by
  induction h with
  | nil => simp
  | @cons h r hops records hr _ ih =>
    have hhead : g.Admits now h ↔ r.isLive now = true ∧ r.edge.nonce ≤ h.nonce ∧
        ¬ r.isSpent h.nonce = true := by
      unfold Admits
      rw [hr]
      simp
    simp only [List.forall_mem_cons, List.zip_cons_cons, hhead, ih]
    tauto

theorem exists_live_and_fresh_iff {hops : List Hop} :
    (∃ records, g.recordsAlong hops = some records ∧
      ¬ records.any (fun r => !r.isLive now) = true ∧
        PathProof.fresh [] (hops.zip records) = true) ↔
      hops.Nodup ∧ ∀ h ∈ hops, g.Admits now h := by
  have htests : ∀ records, g.recordsAlong hops = some records →
      (¬ records.any (fun r => !r.isLive now) = true ∧
        PathProof.fresh [] (hops.zip records) = true ↔
          hops.Nodup ∧ ∀ h ∈ hops, g.Admits now h) := by
    intro records hr
    have hrecords := recordsAlong_eq_some_iff.mp hr
    rw [forall_admits_iff hrecords, PathProof.fresh_iff, List.map_fst_zip hrecords.length_eq.le]
    simp only [List.any_eq_true, Bool.not_eq_true', not_exists, not_and, Bool.not_eq_false,
      List.not_mem_nil, not_false_eq_true, and_true]
    tauto
  constructor
  · rintro ⟨records, hr, h⟩
    exact (htests records hr).mp h
  · rintro ⟨hnd, hall⟩
    cases hr : g.recordsAlong hops with
    | some records => exact ⟨records, rfl, (htests records hr).mpr ⟨hnd, hall⟩⟩
    | none =>
      obtain ⟨h, hh, hnone⟩ := recordsAlong_eq_none_iff.mp hr
      obtain ⟨r, hsome, -⟩ := hall h hh
      cases hnone.symm.trans hsome

/-- **When a proof passes all tests.** -/
theorem check_eq_ok_iff {p : PathProof} :
    g.check registry maxHops bytes sender receiver now = .ok p ↔
      PathProof.decode maxHops bytes = .ok p ∧ p.connects registry sender receiver = true ∧
        PathProof.joined p.hops = true ∧ p.hops.Nodup ∧ ∀ h ∈ p.hops, g.Admits now h := by
  rw [← exists_live_and_fresh_iff]
  unfold check
  cases PathProof.decode maxHops bytes with
  | error m => simp
  | ok q =>
    dsimp only
    rw [Except.ok.injEq]
    constructor
    · intro h
      split_ifs at h with hc hj
      split at h
      · cases h
      next records hr =>
        split_ifs at h with hdead hfresh
        cases h
        exact ⟨rfl, hc, hj, records, hr, hdead, hfresh⟩
    · rintro ⟨rfl, hc, hj, records, hr, hdead, hfresh⟩
      simp [hc, hj, hr, hdead, hfresh]

theorem check_ne_error_valid :
    g.check registry maxHops bytes sender receiver now ≠ .error .valid := by
  unfold check
  repeat' split
  all_goals simp

theorem evaluate_eq_valid_iff : g.evaluate registry maxHops bytes sender receiver now = .valid ↔
    ∃ p, g.check registry maxHops bytes sender receiver now = .ok p := by
  unfold evaluate
  have hne : g.check registry maxHops bytes sender receiver now ≠ .error .valid :=
    check_ne_error_valid
  cases h : g.check registry maxHops bytes sender receiver now with
  | ok p => simp
  | error v =>
    rw [h] at hne
    simpa using hne

theorem verify_fst : (g.verify registry maxHops bytes sender receiver now).1 =
    g.evaluate registry maxHops bytes sender receiver now := by
  unfold verify evaluate
  cases g.check registry maxHops bytes sender receiver now <;> rfl

theorem verify_snd {p : PathProof}
    (h : g.check registry maxHops bytes sender receiver now = .ok p) :
    (g.verify registry maxHops bytes sender receiver now).2 = g.spendAll p.hops := by
  rw [verify, h]

theorem verify_snd_of_ne_valid
    (h : g.evaluate registry maxHops bytes sender receiver now ≠ .valid) :
    (g.verify registry maxHops bytes sender receiver now).2 = g := by
  unfold verify
  cases hc : g.check registry maxHops bytes sender receiver now with
  | ok p => exact absurd (evaluate_eq_valid_iff.mpr ⟨p, hc⟩) h
  | error v => rfl

/-! ## Spending -/

theorem isSome_record?_spend (b : Arc) (nonce : UInt64) (a : Arc) :
    ((g.spend b nonce).2.record? a).isSome = (g.record? a).isSome := by
  rw [record?_spend]
  split_ifs with h
  · rw [h, Option.isSome_map]
  · rfl

/-- **The nonces that are spent after a verification**: those of before and those of the hops. -/
theorem spent_spendAll {hops : List Hop} (hr : ∀ h ∈ hops, (g.record? h.arc).isSome) (k : Hop) :
    (g.spendAll hops).Spent k.arc k.nonce ↔ g.Spent k.arc k.nonce ∨ k ∈ hops := by
  induction hops generalizing g with
  | nil => simp [spendAll]
  | cons h rest ih =>
    have hk : k.arc = h.arc ∧ k.nonce = h.nonce ↔ k = h := by
      obtain ⟨s, t, n⟩ := k
      obtain ⟨s', t', n'⟩ := h
      simp [Hop.arc, and_assoc]
    have hrest : ∀ h' ∈ rest, ((g.spend h.arc h.nonce).2.record? h'.arc).isSome := by
      intro h' hm
      rw [isSome_record?_spend]
      exact hr h' (List.mem_cons_of_mem _ hm)
    rw [spendAll, List.foldl_cons, ← spendAll, ih hrest, spent_spend (hr h List.mem_cons_self), hk,
      List.mem_cons, or_assoc]

end Graph

end WebOfTrust
