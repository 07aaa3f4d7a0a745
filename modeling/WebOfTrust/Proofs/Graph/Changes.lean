import Mathlib
import WebOfTrust.Proofs.Graph.Live

/-!
# Histories of a graph

A graph is what a list of changes has made of the one without records. A pair has a record from the
first valid edge on that was put there, so what was once within reach stays so.

* `Change`, `Graph.change`, `Graph.after`: changes as data, and the graph after some of them;
* `Inserted`, **`isSome_record?_after`**: the pairs that have a record;
* `EverReaches.after`: what stays within reach of records;
* **`search_after`**: the searches of a graph come to their end, and find the nodes to which walks
  lead, of live edges or of pairs where an edge was ever put.
-/

namespace WebOfTrust

/-- A change to a graph, which may fail. -/
inductive Change (α : Type) where
  | add (e : Edge α)
  | revoke (a : Arc) (now : Instant)
  | spend (a : Arc) (nonce : UInt64)

namespace Graph

variable {α : Type} [Arith α]

/-- The graph after a change. -/
def change (g : Graph α) : Change α → Graph α
  | .add e => (g.add e).2
  | .revoke a now => (g.revoke a now).2
  | .spend a nonce => (g.spend a nonce).2

/-- The graph after some changes. -/
def after (g : Graph α) (changes : List (Change α)) : Graph α := changes.foldl change g

variable {g : Graph α} {changes : List (Change α)} {a : Arc}

theorem after_append (g : Graph α) (changes later : List (Change α)) :
    g.after (changes ++ later) = (g.after changes).after later := List.foldl_append ..

theorem Built.change (hg : g.Built) (c : Change α) : (g.change c).Built := by
  cases c with
  | add e => exact hg.add e
  | revoke a now => exact hg.revoke a now
  | spend a nonce => exact hg.spend a nonce

theorem Built.after (hg : g.Built) (changes : List (Change α)) : (g.after changes).Built := by
  induction changes generalizing g with
  | nil => exact hg
  | cons c rest ih => exact ih (hg.change c)

/-! ## Pairs with a record -/

/-- A valid edge was put on a pair by one of some changes. -/
def Inserted (changes : List (Change α)) (a : Arc) : Prop :=
  ∃ e, .add e ∈ changes ∧ e.fault? = none ∧ e.arc = a

theorem isSome_record?_change (c : Change α) (a : Arc) :
    ((g.change c).record? a).isSome = true ↔
      (g.record? a).isSome = true ∨ Inserted [c] a := by
  cases c with
  | add e =>
    have hinserted : Inserted [.add e] a ↔ e.fault? = none ∧ e.arc = a := by
      simp [Inserted]
    rw [change, add_snd, hinserted]
    split_ifs with hf
    · simp [Option.isSome_iff_ne_none.mp hf]
    · rw [isSome_record?_put, or_comm, eq_comm (a := a)]
      simp [Option.not_isSome_iff_eq_none.mp hf]
  | revoke b now =>
    rw [change, record?_revoke, or_iff_left (by simp [Inserted])]
    split_ifs with hab
    · rw [hab, Option.isSome_map]
    · rfl
  | spend b nonce =>
    rw [change, record?_spend, or_iff_left (by simp [Inserted])]
    split_ifs with hab
    · rw [hab, Option.isSome_map]
    · rfl

/-- **A pair has a record when it had one, or a valid edge was put there.** -/
theorem isSome_record?_after (changes : List (Change α)) (a : Arc) :
    ((g.after changes).record? a).isSome = true ↔
      (g.record? a).isSome = true ∨ Inserted changes a := by
  induction changes generalizing g with
  | nil => simp [after, Inserted]
  | cons c rest ih =>
    have hcons : Inserted (c :: rest) a ↔ Inserted [c] a ∨ Inserted rest a := by
      simp only [Inserted, List.mem_cons, List.not_mem_nil, or_false, or_and_right, exists_or]
    rw [after, List.foldl_cons, ← after, ih, isSome_record?_change, hcons, or_assoc]

theorem EverReaches.after {u v : NodeId} (h : g.EverReaches u v) (changes : List (Change α)) :
    (g.after changes).EverReaches u v := by
  refine Relation.ReflTransGen.mono (fun u v hr => ?_) _ _ h
  rw [← Option.isSome_iff_exists] at hr ⊢
  exact (isSome_record?_after changes _).mpr (.inl hr)

/-! ## Searches -/

/-- **The searches of a graph are exact**: they end, with the nodes to which walks lead. -/
theorem search_after (changes : List (Change α)) (source : NodeId) :
    let g : Graph α := empty.after changes
    let start : KeySet NodeId := KeySet.add Table.empty source
    (∀ now found, Searches (fun node => (g.outgoing node now).map (·.target)) [source] start found ↔
      found = g.reachable source now) ∧
    (∀ now v, (g.reachable source now).contains v = true ↔
      Relation.ReflTransGen (fun u w => ∃ e, g.lookup ⟨u, w⟩ now = some e) source v) ∧
    (∀ found, Searches (fun node => (g.recordsFrom node).map (·.edge.target)) [source] start
      found ↔ found = g.historical source) ∧
    ∀ v, (g.historical source).contains v = true ↔
      Relation.ReflTransGen (fun u w => Inserted changes ⟨u, w⟩) source v := by
  intro g start
  have hg : g.Built := Built.empty.after changes
  refine ⟨fun now found => ⟨fun h => h.unique (hg.searches_reachable source now), ?_⟩,
    fun now v => hg.contains_reachable source now v,
    fun found => ⟨fun h => h.unique (hg.searches_historical source), ?_⟩, fun v => ?_⟩
  · rintro rfl
    exact hg.searches_reachable source now
  · rintro rfl
    exact hg.searches_historical source
  · have hrecord : ∀ u w, (∃ r, g.record? ⟨u, w⟩ = some r) ↔ Inserted changes ⟨u, w⟩ := by
      intro u w
      rw [← Option.isSome_iff_exists, isSome_record?_after, record?_empty]
      simp
    rw [hg.contains_historical, EverReaches]
    simp only [hrecord]

end Graph

end WebOfTrust
