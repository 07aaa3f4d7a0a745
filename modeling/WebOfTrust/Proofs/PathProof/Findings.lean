import Mathlib
import WebOfTrust.Proofs.PathProof.Check

/-!
# Verdicts by what is wrong

Every verdict but one says what is wrong with a proof: where it leads, how its hops join, whether
their edges are live, whether its nonces are fresh. What is wrong in several ways is named by the
first. Verification of a valid proof spends the nonces of its hops and does nothing else.

* `PathProof.Strays`, `Graph.Breaks`, `Graph.Lapses`, `Graph.Replays`: what can be wrong;
* `connects_iff`, `breaks_iff`, `any_dead_iff`, `fresh_iff_not_replays`: the tests in these terms;
* `evaluate_cases`: the verdict, one case after the other; `Graph.Warrants`: what each verdict says;
* `Graph.SpentAlong`: two graphs that differ in spent nonces only; `spentAlong_spendAll`;
* **`Graph.verdict_iff`**: when each verdict is given, and what verification changes.
-/

namespace WebOfTrust

variable {α : Type}

/-! ## What is wrong with a proof -/

/-- A proof names other agents than the two given, or they are unknown, or it does not lead from the
node of the one to the node of the other. -/
def PathProof.Strays (registry : Registry) (sender receiver : Identity) (p : PathProof) : Prop :=
  p.sender ≠ sender ∨ p.receiver ≠ receiver ∨
    registry.lookup sender = none ∨ registry.lookup receiver = none ∨
    p.hops.head?.map (·.source) ≠ registry.lookup sender ∨
    p.hops.getLast?.map (·.target) ≠ registry.lookup receiver

/-- The hop along a pair of nodes with a nonce. -/
def Arc.hop (a : Arc) (nonce : UInt64) : Hop := ⟨a.source, a.target, nonce⟩

theorem Arc.hop_eq_iff {a : Arc} {nonce : UInt64} {h : Hop} :
    a.hop nonce = h ↔ a = h.arc ∧ nonce = h.nonce := by
  obtain ⟨s, t⟩ := a
  obtain ⟨s', t', n⟩ := h
  simp [hop, Hop.arc, and_assoc]

namespace Graph

variable (g : Graph α) (now : Instant) (hops : List Hop)

/-- Some hop does not begin where the one before it ends, or there is no record of it. -/
def Breaks : Prop :=
  (∃ i h k, hops[i]? = some h ∧ hops[i + 1]? = some k ∧ h.target ≠ k.source) ∨
    ∃ h ∈ hops, g.record? h.arc = none

/-- The edge of some hop is revoked or has ended. -/
def Lapses : Prop :=
  ∃ h ∈ hops, ∃ r, g.record? h.arc = some r ∧ (r.isRevoked = true ∨ r.edge.isExpired now = true)

/-- The nonce of some hop is lower than that of its edge or was spent before, or a hop repeats an
earlier one. -/
def Replays : Prop :=
  (∃ h ∈ hops, ∃ r, g.record? h.arc = some r ∧
    (h.nonce < r.edge.nonce ∨ r.isSpent h.nonce = true)) ∨
  ∃ (i j : ℕ) (h : Hop), j < i ∧ hops[i]? = some h ∧ hops[j]? = some h

end Graph

/-! ## The tests -/

namespace PathProof

theorem connects_iff {registry : Registry} {sender receiver : Identity} {p : PathProof} :
    p.connects registry sender receiver = true ↔ ¬ p.Strays registry sender receiver := by
  unfold connects Strays
  cases registry.lookup sender <;> cases registry.lookup receiver <;> simp [and_assoc]

theorem joined_iff {hops : List Hop} : joined hops = true ↔
    ∀ i h k, hops[i]? = some h → hops[i + 1]? = some k → h.target = k.source := by
  induction hops with
  | nil => simp [joined]
  | cons h rest ih =>
    cases rest with
    | nil => simp [joined]
    | cons k rest =>
      rw [joined, Bool.and_eq_true, decide_eq_true_eq, ih]
      constructor
      · rintro ⟨hk, hrest⟩ (_ | i) h' k' hh' hk'
        · cases hh'
          cases hk'
          exact hk
        · exact hrest i h' k' hh' hk'
      · exact fun hall => ⟨hall 0 h k rfl rfl, fun i h' k' hh' hk' => hall (i + 1) h' k' hh' hk'⟩

end PathProof

namespace Graph

variable {g : Graph α} {now : Instant} {hops : List Hop} {records : List (Record α)}

theorem any_dead_iff (h : List.Forall₂ (fun h r => g.record? h.arc = some r) hops records) :
    records.any (fun r => !r.isLive now) = true ↔ g.Lapses now hops := by
  unfold Lapses
  induction h with
  | nil => simp
  | @cons h r hops records hr _ ih =>
    rw [List.any_cons, Bool.or_eq_true, ih, List.exists_mem_cons_iff, hr]
    simp only [Option.some.injEq, exists_eq_left', Record.isLive]
    cases r.isRevoked <;> cases r.edge.isExpired now <;> simp

theorem forall_mem_zip_iff (h : List.Forall₂ (fun h r => g.record? h.arc = some r) hops records)
    {P : Hop → Record α → Prop} : (∀ x ∈ hops.zip records, P x.1 x.2) ↔
      ∀ h ∈ hops, ∀ r, g.record? h.arc = some r → P h r := by
  induction h with
  | nil => simp
  | @cons h r hops records hr _ ih =>
    rw [List.zip_cons_cons, List.forall_mem_cons, List.forall_mem_cons, ih, hr]
    simp

theorem nodup_iff_forall_getElem? {hops : List Hop} :
    hops.Nodup ↔ ¬ ∃ (i j : ℕ) (h : Hop), j < i ∧ hops[i]? = some h ∧ hops[j]? = some h := by
  rw [List.nodup_iff_getElem?_ne_getElem?]
  constructor
  · rintro hnd ⟨i, j, h, hji, hi, hj⟩
    exact hnd j i hji (List.getElem?_eq_some_iff.mp hi).1 (hj.trans hi.symm)
  · intro hnone j i hji hi heq
    rw [List.getElem?_eq_getElem hi] at heq
    exact hnone ⟨i, j, _, hji, List.getElem?_eq_getElem hi, heq⟩

theorem fresh_iff_not_replays
    (h : List.Forall₂ (fun h r => g.record? h.arc = some r) hops records) :
    PathProof.fresh [] (hops.zip records) = true ↔ ¬ g.Replays hops := by
  have hall := forall_mem_zip_iff h (P := fun h r =>
    r.edge.nonce ≤ h.nonce ∧ ¬ r.isSpent h.nonce = true ∧ h ∉ ([] : List Hop))
  rw [PathProof.fresh_iff, List.map_fst_zip h.length_eq.le, nodup_iff_forall_getElem?, hall,
    Replays, not_or, and_comm]
  refine and_congr_left fun _ => ?_
  simp only [List.not_mem_nil, not_false_eq_true, and_true, not_exists, not_and, not_or,
    UInt64.not_lt]

variable {registry : Registry} {maxHops : ℕ} {bytes : Bytes} {sender receiver : Identity}
  {p : PathProof}

theorem breaks_iff : g.Breaks hops ↔
    ¬ PathProof.joined hops = true ∨ g.recordsAlong hops = none := by
  rw [Breaks, recordsAlong_eq_none_iff, PathProof.joined_iff]
  push Not
  rfl

theorem evaluate_of_error {flaw : PathProof.Malformation}
    (hd : PathProof.decode maxHops bytes = .error flaw) :
    g.evaluate registry maxHops bytes sender receiver now = .invalidEndpoints := by
  rw [evaluate, check, hd]

/-! ## The verdict on a proof that can be read -/

section Read

variable (hd : PathProof.decode maxHops bytes = .ok p)

include hd

theorem evaluate_of_strays (hs : p.Strays registry sender receiver) :
    g.evaluate registry maxHops bytes sender receiver now = .invalidEndpoints := by
  rw [evaluate, check, hd]
  dsimp only
  rw [if_pos fun hc => PathProof.connects_iff.mp hc hs]

theorem evaluate_of_breaks (hs : ¬ p.Strays registry sender receiver) (hb : g.Breaks p.hops) :
    g.evaluate registry maxHops bytes sender receiver now = .brokenLink := by
  rw [evaluate, check, hd]
  dsimp only
  rw [if_neg (not_not.mpr (PathProof.connects_iff.mpr hs))]
  rcases breaks_iff.mp hb with hj | hr
  · rw [if_pos hj]
  · rw [hr]
    split_ifs <;> rfl

variable (now) in
theorem check_of_not_breaks (hs : ¬ p.Strays registry sender receiver) (hb : ¬ g.Breaks p.hops) :
    ∃ records, List.Forall₂ (fun h r => g.record? h.arc = some r) p.hops records ∧
      g.check registry maxHops bytes sender receiver now =
        if records.any (fun r => !r.isLive now) then .error .revoked
        else if ¬ PathProof.fresh [] (p.hops.zip records) then .error .replay
        else .ok p := by
  rw [breaks_iff, not_or, not_not] at hb
  obtain ⟨records, hr⟩ := Option.ne_none_iff_exists'.mp hb.2
  refine ⟨records, recordsAlong_eq_some_iff.mp hr, ?_⟩
  rw [check, hd]
  dsimp only
  rw [if_neg (not_not.mpr (PathProof.connects_iff.mpr hs)), if_neg (not_not.mpr hb.1), hr]

variable (g registry sender receiver now) in
/-- **The verdict on a proof that can be read** names the first thing wrong with it. -/
theorem evaluate_cases :
    (p.Strays registry sender receiver ∧
      g.evaluate registry maxHops bytes sender receiver now = .invalidEndpoints) ∨
    ¬ p.Strays registry sender receiver ∧ (g.Breaks p.hops ∧
      g.evaluate registry maxHops bytes sender receiver now = .brokenLink ∨
    ¬ g.Breaks p.hops ∧ (g.Lapses now p.hops ∧
      g.evaluate registry maxHops bytes sender receiver now = .revoked ∨
    ¬ g.Lapses now p.hops ∧ (g.Replays p.hops ∧
      g.evaluate registry maxHops bytes sender receiver now = .replay ∨
    ¬ g.Replays p.hops ∧
      g.evaluate registry maxHops bytes sender receiver now = .valid))) := by
  by_cases hs : p.Strays registry sender receiver
  · exact .inl ⟨hs, evaluate_of_strays hd hs⟩
  by_cases hb : g.Breaks p.hops
  · exact .inr ⟨hs, .inl ⟨hb, evaluate_of_breaks hd hs hb⟩⟩
  refine .inr ⟨hs, .inr ⟨hb, ?_⟩⟩
  -- From here on every hop has its record, and the tests see the records only.
  obtain ⟨records, hrecords, hcheck⟩ := check_of_not_breaks now hd hs hb
  rw [evaluate, hcheck]
  by_cases hl : g.Lapses now p.hops
  · rw [if_pos ((any_dead_iff hrecords).mpr hl)]
    exact .inl ⟨hl, rfl⟩
  have hfresh := fresh_iff_not_replays hrecords
  rw [if_neg (mt (any_dead_iff hrecords).mp hl)]
  by_cases hr : g.Replays p.hops
  · rw [if_pos (mt hfresh.mp (not_not.mpr hr))]
    exact .inr ⟨hl, .inl ⟨hr, rfl⟩⟩
  · rw [if_neg (not_not.mpr (hfresh.mpr hr))]
    exact .inr ⟨hl, .inr ⟨hr, rfl⟩⟩

end Read

/-! ## The change of a verification -/

/-- A graph differs from another only in the nonces of some hops, which are spent as well. -/
structure SpentAlong (g g' : Graph α) (hops : List Hop) : Prop where
  sources : g'.sources = g.sources
  absent : ∀ a, g.record? a = none → g'.record? a = none
  present : ∀ a r, g.record? a = some r → ∃ r', g'.record? a = some r' ∧ r'.edge = r.edge ∧
    r'.revokedAt = r.revokedAt ∧
    ∀ n, r'.isSpent n = true ↔ r.isSpent n = true ∨ a.hop n ∈ hops

theorem SpentAlong.trans {g g₁ g₂ : Graph α} {hops rest : List Hop}
    (h₁ : g.SpentAlong g₁ hops) (h₂ : g₁.SpentAlong g₂ rest) :
    g.SpentAlong g₂ (hops ++ rest) where
  sources := h₂.sources.trans h₁.sources
  absent a ha := h₂.absent a (h₁.absent a ha)
  present a r hr := by
    obtain ⟨r₁, hr₁, he₁, ht₁, hs₁⟩ := h₁.present a r hr
    obtain ⟨r₂, hr₂, he₂, ht₂, hs₂⟩ := h₂.present a r₁ hr₁
    refine ⟨r₂, hr₂, he₂.trans he₁, ht₂.trans ht₁, fun n => ?_⟩
    rw [hs₂, hs₁, List.mem_append, or_assoc]

theorem spentAlong_spend (g : Graph α) (h : Hop) :
    g.SpentAlong (g.spend h.arc h.nonce).2 [h] where
  sources := by
    unfold spend
    split <;> rfl
  absent a ha := by
    rw [record?_spend]
    split_ifs with hah
    · rw [← hah, ha]
      rfl
    · exact ha
  present a r hr := by
    simp only [List.mem_singleton, Arc.hop_eq_iff]
    rw [record?_spend]
    split_ifs with hah
    · rw [← hah, hr]
      refine ⟨_, rfl, rfl, rfl, fun n => ?_⟩
      rw [Record.isSpent, KeySet.contains_add, or_comm]
      simp [Record.isSpent]
    · exact ⟨r, hr, rfl, rfl, fun n => by simp [hah]⟩

/-- **Spending along some hops** changes nothing but the spent nonces. -/
theorem spentAlong_spendAll (g : Graph α) (hops : List Hop) :
    g.SpentAlong (g.spendAll hops) hops := by
  induction hops generalizing g with
  | nil => exact ⟨rfl, fun _ h => h, fun a r hr => ⟨r, hr, rfl, rfl, by simp⟩⟩
  | cons h rest ih => exact (spentAlong_spend g h).trans (ih _)

theorem spend_fst_iff {a : Arc} {nonce : UInt64} : (g.spend a nonce).1 = true ↔
    (g.record? a).isSome = true ∧ ¬ g.Spent a nonce := by
  unfold spend Spent
  cases g.record? a <;> simp

theorem spend_fst_of_check {i : ℕ} {h : Hop}
    (hp : g.check registry maxHops bytes sender receiver now = .ok p) (hi : p.hops[i]? = some h) :
    ((g.spendAll (p.hops.take i)).spend h.arc h.nonce).1 = true := by
  obtain ⟨-, -, -, hnd, hadmits⟩ := check_eq_ok_iff.mp hp
  have hrecord : ∀ k ∈ p.hops, (g.record? k.arc).isSome := fun k hk => by
    obtain ⟨r, hr, -⟩ := hadmits k hk
    rw [hr]
    rfl
  have hmem : h ∈ p.hops := List.mem_of_getElem? hi
  obtain ⟨r, hr⟩ := Option.isSome_iff_exists.mp (hrecord h hmem)
  obtain ⟨r', hr', -⟩ := (g.spentAlong_spendAll (p.hops.take i)).present _ r hr
  rw [spend_fst_iff, spent_spendAll fun k hk => hrecord k (List.mem_of_mem_take hk)]
  refine ⟨by rw [hr']; rfl, not_or.mpr ⟨(hadmits h hmem).not_spent, fun hbefore => ?_⟩⟩
  -- The nonce was spent along the way only if the same hop came before.
  obtain ⟨j, hj⟩ := List.mem_iff_getElem?.mp hbefore
  rw [List.getElem?_take] at hj
  split_ifs at hj with hji
  exact nodup_iff_forall_getElem?.mp hnd ⟨i, j, h, hji, hi, hj⟩

variable (g registry maxHops bytes sender receiver now)

/-- What each verdict says: what is wrong with a proof, while nothing is wrong that comes before. -/
def Warrants : Verdict → Prop
  | .invalidEndpoints => (∃ flaw, PathProof.decode maxHops bytes = .error flaw) ∨
      ∃ p, PathProof.decode maxHops bytes = .ok p ∧ p.Strays registry sender receiver
  | .brokenLink => ∃ p, PathProof.decode maxHops bytes = .ok p ∧
      ¬ p.Strays registry sender receiver ∧ g.Breaks p.hops
  | .revoked => ∃ p, PathProof.decode maxHops bytes = .ok p ∧
      ¬ p.Strays registry sender receiver ∧ ¬ g.Breaks p.hops ∧ g.Lapses now p.hops
  | .replay => ∃ p, PathProof.decode maxHops bytes = .ok p ∧
      ¬ p.Strays registry sender receiver ∧ ¬ g.Breaks p.hops ∧ ¬ g.Lapses now p.hops ∧
      g.Replays p.hops
  | .valid => ∃ p, PathProof.decode maxHops bytes = .ok p ∧
      ¬ p.Strays registry sender receiver ∧ ¬ g.Breaks p.hops ∧ ¬ g.Lapses now p.hops ∧
      ¬ g.Replays p.hops

theorem evaluate_eq_iff (v : Verdict) :
    g.evaluate registry maxHops bytes sender receiver now = v ↔
      g.Warrants now registry maxHops bytes sender receiver v := by
  cases hd : PathProof.decode maxHops bytes with
  | error flaw =>
    rw [evaluate_of_error hd]
    cases v <;> simp [Warrants, hd]
  | ok p =>
    rcases evaluate_cases g now registry sender receiver hd with ⟨hs, hv⟩ | ⟨hs, ⟨hb, hv⟩ |
      ⟨hb, ⟨hl, hv⟩ | ⟨hl, ⟨hr, hv⟩ | ⟨hr, hv⟩⟩⟩⟩
    all_goals
      rw [hv]
      cases v <;> simp [Warrants, *]

theorem verify_of_valid {p : PathProof} (hd : PathProof.decode maxHops bytes = .ok p)
    (hv : g.evaluate registry maxHops bytes sender receiver now = .valid) :
    let after := (g.verify registry maxHops bytes sender receiver now).2
    after = g.spendAll p.hops ∧ g.SpentAlong after p.hops ∧
      ∀ i h, p.hops[i]? = some h →
        ((g.spendAll (p.hops.take i)).spend h.arc h.nonce).1 = true := by
  intro after
  obtain ⟨q, hq⟩ := evaluate_eq_valid_iff.mp hv
  obtain rfl : q = p := Except.ok.inj ((check_eq_ok_iff.mp hq).1.symm.trans hd)
  have hafter : after = g.spendAll q.hops := verify_snd hq
  rw [hafter]
  exact ⟨rfl, spentAlong_spendAll g q.hops, fun i h hi => spend_fst_of_check hq hi⟩

/-- **Verification and evaluation agree**, and a verdict is given just when what it says is so. -/
theorem verdict_iff (g : Graph α) (registry : Registry) (maxHops : ℕ) (bytes : Bytes)
    (sender receiver : Identity) (now : Instant) :
    let verdict := g.evaluate registry maxHops bytes sender receiver now
    let after := (g.verify registry maxHops bytes sender receiver now).2
    (g.verify registry maxHops bytes sender receiver now).1 = verdict ∧
    (∀ v, verdict = v ↔ g.Warrants now registry maxHops bytes sender receiver v) ∧
    (∀ p, PathProof.decode maxHops bytes = .ok p → verdict = .valid →
      after = g.spendAll p.hops ∧ g.SpentAlong after p.hops ∧
      ∀ i h, p.hops[i]? = some h →
        ((g.spendAll (p.hops.take i)).spend h.arc h.nonce).1 = true) ∧
    (verdict ≠ .valid → after = g) :=
  ⟨verify_fst, evaluate_eq_iff g now registry maxHops bytes sender receiver,
    fun _ hd hv => verify_of_valid g now registry maxHops bytes sender receiver hd hv,
    verify_snd_of_ne_valid⟩

end Graph

end WebOfTrust
