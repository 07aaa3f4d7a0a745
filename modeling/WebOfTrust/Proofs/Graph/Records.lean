import Mathlib
import WebOfTrust.Graph

/-!
# Records under change

What each change does to the record of every pair, and what a graph that was built by such changes
satisfies.

* `record?_put`, `record?_revoke`, `record?_spend`: the records after a change;
* `Spent`: a nonce has been spent on a pair; putting and revoking keep it (`spent_put`,
  `spent_revoke`), and spending adds one (`spent_spend`);
* `Built`: the graphs that changes lead to, such as `addAll`; **`Built.arc_eq`**,
  **`Built.fault?_eq_none`**: their records lie where they belong, and hold valid edges;
* `lookup_eq_some_iff`, `Built.fault?_of_lookup`, `isExpired_of_lookup`: live edges by look-up;
  `Built.mem_outgoing_iff`, `Built.lookup_iff_mem_outgoing`: and by list.
-/

namespace WebOfTrust

variable {α : Type}

/-- A record after the revocation of its edge, which does nothing to an edge that is not live. -/
def Record.revoke (now : Instant) (r : Record α) : Record α :=
  if r.isLive now then { r with revokedAt := some now } else r

@[simp] theorem Record.revoke_edge (now : Instant) (r : Record α) :
    (r.revoke now).edge = r.edge := by
  unfold Record.revoke
  split_ifs <;> rfl

@[simp] theorem Record.revoke_spent (now : Instant) (r : Record α) :
    (r.revoke now).spent = r.spent := by
  unfold Record.revoke
  split_ifs <;> rfl

namespace Graph

variable {g : Graph α}

/-! ## The records after a change -/

@[simp] theorem record?_empty (a : Arc) : (empty : Graph α).record? a = none := rfl

theorem record?_put (e : Edge α) (a : Arc) :
    (g.put e).record? a =
      if a = e.arc then some ⟨e, none, ((g.record? e.arc).map Record.spent).getD Table.empty⟩
      else g.record? a := by
  unfold put
  cases h : g.record? e.arc with
  | none => simp only [record?, Table.get?_insert]; rfl
  | some r => simp only [record?, Table.get?_insert]; rfl

theorem record?_revoke (b : Arc) (now : Instant) (a : Arc) :
    (g.revoke b now).2.record? a =
      if a = b then (g.record? b).map (Record.revoke now) else g.record? a := by
  unfold revoke
  cases h : g.record? b with
  | none =>
    split_ifs with hab
    · rw [hab]; exact h
    · rfl
  | some r =>
    by_cases hl : r.isLive now = true
    · simp only [if_pos hl, record?, Table.get?_insert, Option.map_some, Record.revoke]
    · simp only [if_neg hl, Option.map_some, Record.revoke]
      split_ifs with hab
      · rw [hab]; exact h
      · rfl

theorem record?_spend (b : Arc) (nonce : UInt64) (a : Arc) :
    (g.spend b nonce).2.record? a =
      if a = b then (g.record? b).map fun r => { r with spent := r.spent.add nonce }
      else g.record? a := by
  unfold spend
  cases h : g.record? b with
  | none =>
    split_ifs with hab
    · rw [hab]; exact h
    · rfl
  | some r => simp only [record?, Table.get?_insert, Option.map_some]

theorem add_snd [Arith α] (g : Graph α) (e : Edge α) :
    (g.add e).2 = if e.fault?.isSome then g else g.put e := by
  unfold add
  cases e.fault? <;> rfl

/-! ## Spent nonces -/

/-- A nonce has been spent on a pair. -/
def Spent (g : Graph α) (a : Arc) (nonce : UInt64) : Prop :=
  ∃ r, g.record? a = some r ∧ r.isSpent nonce = true

theorem spent_put (e : Edge α) (a : Arc) (nonce : UInt64) :
    (g.put e).Spent a nonce ↔ g.Spent a nonce := by
  unfold Spent
  rw [record?_put]
  split_ifs with h
  · subst h
    cases hr : g.record? e.arc with
    | none => simp [Record.isSpent, Table.contains]
    | some r => simp [Record.isSpent]
  · rfl

theorem spent_add [Arith α] (e : Edge α) (a : Arc) (nonce : UInt64) :
    (g.add e).2.Spent a nonce ↔ g.Spent a nonce := by
  rw [add_snd]
  split_ifs
  · rfl
  · exact spent_put e a nonce

theorem spent_revoke (b : Arc) (now : Instant) (a : Arc) (nonce : UInt64) :
    (g.revoke b now).2.Spent a nonce ↔ g.Spent a nonce := by
  unfold Spent
  rw [record?_revoke]
  split_ifs with h
  · subst h
    cases hr : g.record? a with
    | none => simp
    | some r => simp [Record.isSpent]
  · rfl

theorem spent_spend {b : Arc} (hb : (g.record? b).isSome) (n : UInt64) (a : Arc) (nonce : UInt64) :
    (g.spend b n).2.Spent a nonce ↔ g.Spent a nonce ∨ a = b ∧ nonce = n := by
  unfold Spent
  rw [record?_spend]
  split_ifs with h
  · subst h
    obtain ⟨r, hr⟩ := Option.isSome_iff_exists.mp hb
    simp [hr, Record.isSpent, KeySet.contains_add, or_comm]
  · simp [h]

/-! ## Graphs built by changes -/

/-- The graphs that can be built by the changes, from the one without records on. -/
inductive Built [Arith α] : Graph α → Prop
  | empty : Built empty
  | add {g : Graph α} (hg : Built g) (e : Edge α) : Built (g.add e).2
  | revoke {g : Graph α} (hg : Built g) (a : Arc) (now : Instant) : Built (g.revoke a now).2
  | spend {g : Graph α} (hg : Built g) (a : Arc) (nonce : UInt64) : Built (g.spend a nonce).2

/-- Put some edges, those with nothing wrong, one after another. -/
def addAll [Arith α] (g : Graph α) (edges : List (Edge α)) : Graph α :=
  edges.foldl (fun g e => (g.add e).2) g

theorem Built.addAll [Arith α] (hg : g.Built) (edges : List (Edge α)) : (g.addAll edges).Built := by
  unfold Graph.addAll
  induction edges generalizing g with
  | nil => exact hg
  | cons e rest ih => exact ih (hg.add e)

/-- **What holds of every edge with nothing wrong, at its pair, holds of all records.** -/
theorem Built.record_induct [Arith α] (hg : g.Built) {P : Arc → Edge α → Prop}
    (hP : ∀ e : Edge α, e.fault? = none → P e.arc e) {a : Arc} {r : Record α}
    (hr : g.record? a = some r) : P a r.edge := by
  induction hg generalizing a r with
  | empty => simp at hr
  | @add g _ e ih =>
    rw [add_snd] at hr
    split_ifs at hr with hf
    · exact ih hr
    · rw [record?_put] at hr
      split_ifs at hr with ha
      · cases hr
        rw [ha]
        exact hP e (by simpa using hf)
      · exact ih hr
  | @revoke g _ b now ih =>
    rw [record?_revoke] at hr
    split_ifs at hr with ha
    · obtain ⟨r₀, h₀, rfl⟩ := Option.map_eq_some_iff.mp hr
      rw [Record.revoke_edge, ha]
      exact ih h₀
    · exact ih hr
  | @spend g _ b nonce ih =>
    rw [record?_spend] at hr
    split_ifs at hr with ha
    · obtain ⟨r₀, h₀, rfl⟩ := Option.map_eq_some_iff.mp hr
      rw [ha]
      exact ih (r := r₀) h₀
    · exact ih hr

/-- **A record lies at the pair that its edge joins.** -/
theorem Built.arc_eq [Arith α] (hg : g.Built) {a : Arc} {r : Record α}
    (hr : g.record? a = some r) : r.edge.arc = a :=
  hg.record_induct (P := fun a e => e.arc = a) (fun _ _ => rfl) hr

/-- **Nothing is wrong with the edge of a record.** -/
theorem Built.fault?_eq_none [Arith α] (hg : g.Built) {a : Arc} {r : Record α}
    (hr : g.record? a = some r) : r.edge.fault? = none :=
  hg.record_induct (P := fun _ e => e.fault? = none) (fun _ h => h) hr

/-! ## Live edges -/

theorem lookup_eq_some_iff {a : Arc} {now : Instant} {e : Edge α} :
    g.lookup a now = some e ↔ ∃ r, g.record? a = some r ∧ r.isLive now = true ∧ r.edge = e := by
  unfold lookup
  cases g.record? a with
  | none => simp
  | some r => by_cases h : r.isLive now = true <;> simp [h]

theorem Built.arc_of_lookup [Arith α] (hg : g.Built) {a : Arc} {now : Instant} {e : Edge α}
    (h : g.lookup a now = some e) : e.arc = a := by
  obtain ⟨r, hr, -, rfl⟩ := lookup_eq_some_iff.mp h
  exact hg.arc_eq hr

theorem Built.fault?_of_lookup [Arith α] (hg : g.Built) {a : Arc} {now : Instant} {e : Edge α}
    (h : g.lookup a now = some e) : e.fault? = none := by
  obtain ⟨r, hr, -, rfl⟩ := lookup_eq_some_iff.mp h
  exact hg.fault?_eq_none hr

theorem isExpired_of_lookup {a : Arc} {now : Instant} {e : Edge α}
    (h : g.lookup a now = some e) : e.isExpired now = false := by
  obtain ⟨r, -, hlive, rfl⟩ := lookup_eq_some_iff.mp h
  simpa using (Bool.and_eq_true_iff.mp hlive).2

theorem mem_recordsFrom_iff {u : NodeId} {r : Record α} :
    r ∈ g.recordsFrom u ↔ ∃ v, g.record? ⟨u, v⟩ = some r := by
  simp only [recordsFrom, List.mem_map, List.mem_filter, decide_eq_true_eq]
  constructor
  · rintro ⟨⟨⟨s, v⟩, r'⟩, ⟨hmem, rfl⟩, rfl⟩
    exact ⟨v, Table.mem_entries_iff.mp hmem⟩
  · rintro ⟨v, hv⟩
    exact ⟨(⟨u, v⟩, r), ⟨Table.mem_entries_iff.mpr hv, rfl⟩, rfl⟩

/-- **The outgoing list holds the live edges that leave a node.** -/
theorem Built.mem_outgoing_iff [Arith α] (hg : g.Built) {u : NodeId} {now : Instant}
    {e : Edge α} : e ∈ g.outgoing u now ↔ e.source = u ∧ g.lookup e.arc now = some e := by
  simp only [outgoing, List.mem_map, List.mem_filter, mem_recordsFrom_iff]
  constructor
  · rintro ⟨r, ⟨⟨v, hr⟩, hl⟩, rfl⟩
    have ha := hg.arc_eq hr
    refine ⟨congrArg Arc.source ha, ?_⟩
    rw [ha]
    exact lookup_eq_some_iff.mpr ⟨r, hr, hl, rfl⟩
  · rintro ⟨rfl, h⟩
    obtain ⟨r, hr, hl, rfl⟩ := lookup_eq_some_iff.mp h
    exact ⟨r, ⟨⟨r.edge.target, hr⟩, hl⟩, rfl⟩

theorem Built.lookup_iff_mem_outgoing [Arith α] (hg : g.Built) {u v : NodeId} {now : Instant}
    {e : Edge α} : g.lookup ⟨u, v⟩ now = some e ↔ e ∈ g.outgoing u now ∧ e.target = v := by
  rw [hg.mem_outgoing_iff]
  constructor
  · intro h
    have ha := hg.arc_of_lookup h
    refine ⟨⟨congrArg Arc.source ha, ?_⟩, congrArg Arc.target ha⟩
    rw [ha]
    exact h
  · rintro ⟨⟨rfl, h⟩, rfl⟩
    exact h

end Graph

end WebOfTrust
