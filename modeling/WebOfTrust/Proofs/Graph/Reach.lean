import Mathlib
import WebOfTrust.Graph.Reach
import WebOfTrust.Proofs.Graph.Records

/-!
# Reach as a closure

The search with a list of waiting nodes comes to its end, given fuel for every node that can be
discovered, and finds the nodes to which steps lead.

* `discover`: its two answers (`contains_discover`, `mem_fresh_iff`, `nodup_fresh`);
* `Searches`: a search comes to its end; `Explored`: its states; **`Searches.contains_iff`**: what
  it finds; `searches_explore`: the fuel that it needs;
* `Reaches`, `EverReaches`: a walk of live edges, or of records, leads from one node to another;
* **`Built.contains_reachable`**, **`Built.contains_historical`**: the two kinds of reach are what
  such walks reach.
-/

namespace WebOfTrust

/-! ## Discovery -/

theorem contains_discover (seen : KeySet NodeId) (l : List NodeId) (v : NodeId) :
    (discover seen l).1.contains v = true ↔ seen.contains v = true ∨ v ∈ l := by
  induction l generalizing seen with
  | nil => simp [discover]
  | cons n rest ih =>
    rw [discover, List.mem_cons]
    split_ifs with hn
    · rw [ih]
      constructor
      · exact Or.imp_right Or.inr
      · rintro (h | rfl | h)
        · exact .inl h
        · exact .inl hn
        · exact .inr h
    · simp only [ih, KeySet.contains_add]
      tauto

theorem mem_fresh_iff (seen : KeySet NodeId) (l : List NodeId) (v : NodeId) :
    v ∈ (discover seen l).2 ↔ v ∈ l ∧ ¬ seen.contains v = true := by
  induction l generalizing seen with
  | nil => simp [discover]
  | cons n rest ih =>
    rw [discover, List.mem_cons]
    split_ifs with hn
    · rw [ih]
      constructor
      · exact fun ⟨hv, hs⟩ => ⟨.inr hv, hs⟩
      · rintro ⟨rfl | hv, hs⟩
        · exact absurd hn hs
        · exact ⟨hv, hs⟩
    · simp only [List.mem_cons, ih, KeySet.contains_add]
      by_cases h : v = n
      · subst h; simp [hn]
      · simp [h]

theorem nodup_fresh (seen : KeySet NodeId) (l : List NodeId) : (discover seen l).2.Nodup := by
  induction l generalizing seen with
  | nil => simp [discover]
  | cons n rest ih =>
    rw [discover]
    split_ifs
    · exact ih seen
    · refine List.nodup_cons.mpr ⟨fun h => ?_, ih _⟩
      exact ((mem_fresh_iff _ _ _).mp h).2 ((KeySet.contains_add _ _ _).mpr (.inl rfl))

/-! ## Search -/

section Search

/-- A search from some waiting nodes and those seen comes to its end, with the nodes it has found:
as long as a node waits, the first one is visited, and the nodes discovered there wait as well. -/
inductive Searches (next : NodeId → List NodeId) :
    List NodeId → KeySet NodeId → KeySet NodeId → Prop
  | done (seen : KeySet NodeId) : Searches next [] seen seen
  | visit {node : NodeId} {waiting : List NodeId} {seen found : KeySet NodeId}
      (h : Searches next (waiting ++ (discover seen (next node)).2)
        (discover seen (next node)).1 found) :
      Searches next (node :: waiting) seen found

variable {next : NodeId → List NodeId} {waiting : List NodeId} {seen found : KeySet NodeId}

theorem Searches.unique {found' : KeySet NodeId} (h : Searches next waiting seen found)
    (h' : Searches next waiting seen found') : found = found' := by
  induction h with
  | done seen =>
    cases h'
    rfl
  | visit _ ih =>
    cases h' with
    | visit h' => exact ih h'

/-- The state of a search: the waiting nodes are seen, and each seen node waits or has its steps
seen. -/
structure Explored (next : NodeId → List NodeId) (waiting : List NodeId) (seen : KeySet NodeId) :
    Prop where
  waits : ∀ u ∈ waiting, seen.contains u = true
  done : ∀ u, seen.contains u = true → u ∈ waiting ∨ ∀ v ∈ next u, seen.contains v = true

theorem Explored.contains_iff (h : Explored next [] seen) (v : NodeId) :
    seen.contains v = true ↔
      ∃ u, seen.contains u = true ∧ Relation.ReflTransGen (fun a b => b ∈ next a) u v := by
  refine ⟨fun hv => ⟨v, hv, .refl⟩, ?_⟩
  rintro ⟨u, hu, huv⟩
  induction huv with
  | refl => exact hu
  | tail _ hstep ih => exact (h.done _ ih).resolve_left List.not_mem_nil _ hstep

theorem Explored.visit {node : NodeId} (h : Explored next (node :: waiting) seen) :
    Explored next (waiting ++ (discover seen (next node)).2) (discover seen (next node)).1 where
  waits u hu := by
    rw [contains_discover]
    rcases List.mem_append.mp hu with hu | hu
    · exact .inl (h.waits u (List.mem_cons_of_mem _ hu))
    · exact .inr ((mem_fresh_iff _ _ _).mp hu).1
  done u hu := by
    by_cases hs : seen.contains u = true
    · rcases h.done u hs with hw | hall
      · rcases List.mem_cons.mp hw with rfl | hw
        · exact .inr fun w hw => (contains_discover _ _ _).mpr (.inr hw)
        · exact .inl (List.mem_append_left _ hw)
      · exact .inr fun w hw => (contains_discover _ _ _).mpr (.inl (hall w hw))
    · refine .inl (List.mem_append_right _ ((mem_fresh_iff _ _ _).mpr ⟨?_, hs⟩))
      exact ((contains_discover _ _ _).mp hu).resolve_left hs

/-- **What a search finds**: the nodes to which steps lead from those seen. -/
theorem Searches.contains_iff (hs : Searches next waiting seen found)
    (h : Explored next waiting seen) (v : NodeId) : found.contains v = true ↔
      ∃ u, seen.contains u = true ∧ Relation.ReflTransGen (fun a b => b ∈ next a) u v := by
  induction hs with
  | done seen => exact h.contains_iff v
  | @visit node waiting seen found _ ih =>
    have hnode : seen.contains node = true := h.waits node List.mem_cons_self
    rw [ih h.visit]
    constructor
    · rintro ⟨u, hu, huv⟩
      rcases (contains_discover _ _ _).mp hu with hu | hu
      · exact ⟨u, hu, huv⟩
      · exact ⟨node, hnode, huv.head hu⟩
    · rintro ⟨u, hu, huv⟩
      exact ⟨u, (contains_discover _ _ _).mpr (.inl hu), huv⟩

/-- **A search from a source finds the nodes to which steps lead.** -/
theorem Searches.contains_iff_of_source {source : NodeId}
    (hs : Searches next [source] (KeySet.add Table.empty source) found) (v : NodeId) :
    found.contains v = true ↔ Relation.ReflTransGen (fun a b => b ∈ next a) source v := by
  have hsource : ∀ u, (KeySet.add Table.empty source).contains u = true ↔ u = source := by
    intro u
    rw [KeySet.contains_add]
    simp [Table.contains]
  have hstart : Explored next [source] (KeySet.add Table.empty source) := by
    refine ⟨fun u hu => ?_, fun u hu => .inl ?_⟩
    · rw [hsource]
      exact List.mem_singleton.mp hu
    · rw [hsource] at hu
      exact List.mem_singleton.mpr hu
  rw [hs.contains_iff hstart]
  simp only [hsource, exists_eq_left]

/-! ## Fuel -/

variable (T : Finset NodeId)

/-- The nodes that a search may still discover. -/
def unseen (seen : KeySet NodeId) : Finset NodeId := T.filter fun v => ¬ seen.contains v = true

theorem card_unseen_discover (seen : KeySet NodeId) (l : List NodeId) (hl : ∀ v ∈ l, v ∈ T) :
    (discover seen l).2.length + (unseen T (discover seen l).1).card = (unseen T seen).card := by
  rw [← List.toFinset_card_of_nodup (nodup_fresh seen l), ← Finset.card_union_of_disjoint]
  · congr 1
    ext v
    simp only [unseen, Finset.mem_union, List.mem_toFinset, mem_fresh_iff, Finset.mem_filter,
      contains_discover]
    have := hl v
    tauto
  · refine Finset.disjoint_left.mpr fun v hv hu => ?_
    rw [List.mem_toFinset, mem_fresh_iff] at hv
    rw [unseen, Finset.mem_filter, contains_discover] at hu
    exact hu.2 (.inr hv.1)

/-- **A search comes to its end** with fuel for what is waiting and for what may be discovered. -/
theorem searches_explore (hT : ∀ u, ∀ v ∈ next u, v ∈ T) {fuel : ℕ}
    (hfuel : waiting.length + (unseen T seen).card ≤ fuel) :
    Searches next waiting seen (explore next fuel waiting seen) := by
  induction fuel generalizing waiting seen with
  | zero =>
    obtain rfl : waiting = [] := List.length_eq_zero_iff.mp (by omega)
    exact .done seen
  | succ fuel ih =>
    rcases waiting with _ | ⟨node, waiting⟩
    · exact .done seen
    -- A visit turns an unseen node into a waiting one, and takes the visited one away.
    have hcard := card_unseen_discover T seen (next node) (hT node)
    rw [List.length_cons] at hfuel
    rw [explore]
    refine .visit (ih ?_)
    rw [List.length_append]
    omega

end Search

/-! ## Reach in a graph -/

theorem reflTransGen_congr {β : Type} {R S : β → β → Prop} {a : β}
    (h : ∀ u, Relation.ReflTransGen R a u → ∀ v, R u v ↔ S u v) (v : β) :
    Relation.ReflTransGen R a v ↔ Relation.ReflTransGen S a v := by
  constructor
  · intro hv
    induction hv with
    | refl => exact .refl
    | @tail u w hu hstep ih => exact ih.tail ((h u hu w).mp hstep)
  · intro hv
    induction hv with
    | refl => exact .refl
    | @tail u w _ hstep ih => exact ih.tail ((h u ih w).mpr hstep)

namespace Graph

variable {α : Type} {g : Graph α}

/-- The targets of records. -/
def targets (g : Graph α) : Finset NodeId :=
  (g.records.entries.map fun entry => entry.1.target).toFinset

theorem mem_targets {v : NodeId} (h : ∃ s, (g.record? ⟨s, v⟩).isSome = true) : v ∈ g.targets := by
  obtain ⟨s, hs⟩ := h
  obtain ⟨r, hr⟩ := Option.isSome_iff_exists.mp hs
  rw [targets, List.mem_toFinset, List.mem_map]
  exact ⟨(⟨s, v⟩, r), Table.mem_entries_iff.mpr hr, rfl⟩

theorem card_targets_le (g : Graph α) : g.targets.card ≤ g.recordCount := by
  refine (List.toFinset_card_le _).trans ?_
  rw [List.length_map]
  rfl

/-- **The search for reach comes to its end**, provided that steps lead to targets of records. -/
theorem searches_reach {next : NodeId → List NodeId}
    (hnext : ∀ u, ∀ v ∈ next u, ∃ s, (g.record? ⟨s, v⟩).isSome = true) (source : NodeId) :
    Searches next [source] (KeySet.add Table.empty source) (g.reach next source) := by
  refine searches_explore g.targets (fun u v hv => mem_targets (hnext u v hv)) ?_
  have hunseen : (unseen g.targets (KeySet.add Table.empty source)).card ≤ g.targets.card :=
    Finset.card_le_card (Finset.filter_subset _ _)
  have htargets := g.card_targets_le
  rw [List.length_singleton]
  omega

/-- A walk of live edges leads from one node to another. -/
def Reaches (g : Graph α) (now : Instant) : NodeId → NodeId → Prop :=
  Relation.ReflTransGen fun u v => ∃ e, g.lookup ⟨u, v⟩ now = some e

theorem Built.mem_outgoing_targets_iff [Arith α] (hg : g.Built) {now : Instant} {u v : NodeId} :
    v ∈ (g.outgoing u now).map (·.target) ↔ ∃ e, g.lookup ⟨u, v⟩ now = some e := by
  simp only [List.mem_map, hg.lookup_iff_mem_outgoing]

theorem Built.searches_reachable [Arith α] (hg : g.Built) (source : NodeId) (now : Instant) :
    Searches (fun node => (g.outgoing node now).map (·.target)) [source]
      (KeySet.add Table.empty source) (g.reachable source now) := by
  refine searches_reach (fun u v hv => ⟨u, ?_⟩) source
  obtain ⟨e, he⟩ := hg.mem_outgoing_targets_iff.mp hv
  obtain ⟨r, hr, -⟩ := lookup_eq_some_iff.mp he
  rw [hr]
  rfl

/-- **The reachable nodes are those that a walk of live edges reaches.** -/
theorem Built.contains_reachable [Arith α] (hg : g.Built) (source : NodeId) (now : Instant)
    (v : NodeId) : (g.reachable source now).contains v = true ↔ g.Reaches now source v := by
  rw [(hg.searches_reachable source now).contains_iff_of_source]
  simp only [hg.mem_outgoing_targets_iff]
  rfl

theorem Built.contains_reachable_self [Arith α] (hg : g.Built) (source : NodeId) (now : Instant) :
    (g.reachable source now).contains source = true :=
  (hg.contains_reachable source now source).mpr .refl

theorem Built.size_reachable_pos [Arith α] (hg : g.Built) (source : NodeId) (now : Instant) :
    0 < (g.reachable source now).size := by
  rw [← Table.length_keys]
  exact List.length_pos_of_mem (Table.mem_keys_iff.mpr (hg.contains_reachable_self source now))

/-- A walk of records leads from one node to another. -/
def EverReaches (g : Graph α) : NodeId → NodeId → Prop :=
  Relation.ReflTransGen fun u v => ∃ r, g.record? ⟨u, v⟩ = some r

theorem Reaches.ever {now : Instant} {u v : NodeId} (h : g.Reaches now u v) :
    g.EverReaches u v := by
  induction h with
  | refl => exact .refl
  | tail _ hstep ih =>
    obtain ⟨e, he⟩ := hstep
    obtain ⟨r, hr, -⟩ := lookup_eq_some_iff.mp he
    exact ih.tail ⟨r, hr⟩

theorem Built.mem_recordsFrom_targets_iff [Arith α] (hg : g.Built) {u v : NodeId} :
    v ∈ (g.recordsFrom u).map (·.edge.target) ↔ ∃ r, g.record? ⟨u, v⟩ = some r := by
  simp only [List.mem_map, mem_recordsFrom_iff]
  constructor
  · rintro ⟨r, ⟨x, hr⟩, rfl⟩
    have htarget : r.edge.target = x := congrArg Arc.target (hg.arc_eq hr)
    rw [htarget]
    exact ⟨r, hr⟩
  · rintro ⟨r, hr⟩
    exact ⟨r, ⟨v, hr⟩, congrArg Arc.target (hg.arc_eq hr)⟩

theorem Built.searches_historical [Arith α] (hg : g.Built) (source : NodeId) :
    Searches (fun node => (g.recordsFrom node).map (·.edge.target)) [source]
      (KeySet.add Table.empty source) (g.historical source) := by
  refine searches_reach (fun u v hv => ⟨u, ?_⟩) source
  exact Option.isSome_iff_exists.mpr (hg.mem_recordsFrom_targets_iff.mp hv)

/-- **The nodes once reachable are those that a walk of records reaches.** -/
theorem Built.contains_historical [Arith α] (hg : g.Built) (source v : NodeId) :
    (g.historical source).contains v = true ↔ g.EverReaches source v := by
  rw [(hg.searches_historical source).contains_iff_of_source]
  simp only [hg.mem_recordsFrom_targets_iff]
  rfl

theorem Built.contains_reachable_of_lookup [Arith α] (hg : g.Built) {source u v : NodeId}
    {now : Instant} {e : Edge α} (hu : (g.reachable source now).contains u = true)
    (h : g.lookup ⟨u, v⟩ now = some e) : (g.reachable source now).contains v = true := by
  rw [hg.contains_reachable] at hu ⊢
  exact hu.tail ⟨e, h⟩

end Graph

end WebOfTrust
