import Mathlib
import WebOfTrust.Proofs.Context.Refusals
import WebOfTrust.Proofs.Fold
import WebOfTrust.Proofs.Graph.Live

/-!
# Deliveries of edges

Edges of different pairs do not get in each other's way, and an edge that comes again finds itself
there already. So it does not matter in which order edges arrive, and how often.

* `Graph.put_comm`, `Graph.put_put`, `Clock.observe_comm`, `Clock.observe_observe`: putting edges
  into a graph and telling a clock of times commute, and change nothing when repeated;
* `Context.addEdge_comm`, `Context.addEdge_addEdge`: so does putting edges into a context;
* `Edge.receipt`, `Context.run_add`: the answers, which depend on the edges alone;
* `Delivers`: some edges in some order, with any of them delivered again;
  **`Context.delivery_order`**: the order leaves no trace.
-/

namespace WebOfTrust

/-! ## Graphs and clocks -/

namespace KeySet

variable {κ : Type} [Key κ]

theorem add_comm (s : KeySet κ) (j k : κ) : (s.add j).add k = (s.add k).add j := by
  refine ext_contains fun i => ?_
  simp only [contains_add]
  tauto

end KeySet

namespace Graph

variable {α : Type} {g g' : Graph α} {e e' : Edge α}

theorem ext_record? (h : ∀ a, g.record? a = g'.record? a) (hs : g.sources = g'.sources) :
    g = g' := by
  obtain ⟨records, sources⟩ := g
  obtain ⟨records', sources'⟩ := g'
  obtain rfl : records = records' := Table.ext_get? h
  obtain rfl : sources = sources' := hs
  rfl

theorem sources_put (g : Graph α) (e : Edge α) : (g.put e).sources =
    if (g.record? e.arc).isSome = true then g.sources
    else g.sources.insert e.target ((g.sourcesOf e.target).add e.source) := by
  unfold put
  cases g.record? e.arc <;> rfl

theorem record?_put_of_ne (h : e.arc ≠ e'.arc) : (g.put e).record? e'.arc = g.record? e'.arc := by
  rw [record?_put, if_neg h.symm]

theorem sources_put_comm (h : e.arc ≠ e'.arc) :
    ((g.put e).put e').sources = ((g.put e').put e).sources := by
  rw [sources_put (g.put e), sources_put (g.put e'), record?_put_of_ne h,
    record?_put_of_ne h.symm]
  simp only [sourcesOf, sources_put]
  split_ifs
  · rfl
  · rfl
  · rfl
  · -- Both pairs are new. They meet in the index if they have one target.
    refine Table.ext_get? fun v => ?_
    simp only [Table.get?_insert]
    by_cases ht : e.target = e'.target
    · by_cases hv : v = e'.target <;> simp [ht, hv, KeySet.add_comm]
    · by_cases hv : v = e'.target
      · simp [hv, Ne.symm ht]
      · simp [hv, ht]

/-- **Edges of different pairs are put in either order.** -/
theorem put_comm (h : e.arc ≠ e'.arc) : (g.put e).put e' = (g.put e').put e := by
  refine ext_record? (fun a => ?_) (sources_put_comm h)
  simp only [record?_put, if_neg h, if_neg h.symm]
  by_cases ha : a = e.arc
  · simp [ha, h]
  · simp [ha]

/-- **An edge that is put again finds itself there.** -/
theorem put_put (g : Graph α) (e : Edge α) : (g.put e).put e = g.put e := by
  have hr : (g.put e).record? e.arc =
      some ⟨e, none, ((g.record? e.arc).map Record.spent).getD Table.empty⟩ := by
    rw [record?_put, if_pos rfl]
  refine ext_record? (fun a => ?_) (by rw [sources_put, hr]; rfl)
  rw [record?_put e a, hr]
  by_cases ha : a = e.arc
  · simp [ha, hr]
  · simp [ha]

end Graph

namespace Clock

theorem observe_comm (k : Clock) (t u : Instant) :
    (k.observe t).observe u = (k.observe u).observe t := by
  cases k with
  | system reading => rfl
  | logical highWater =>
    simp only [observe]
    congr 1
    grind

theorem observe_observe (k : Clock) (t : Instant) : (k.observe t).observe t = k.observe t := by
  cases k with
  | system reading => rfl
  | logical highWater =>
    simp only [observe]
    congr 1
    grind

end Clock

/-! ## Contexts -/

variable {α : Type} [Arith α]

/-- The answer to an edge that is to be put. -/
def Edge.receipt (e : Edge α) : Except (Fault α) (Reply α) := e.fault?.elim (.ok .done) .error

/-- Some edges in some order, each of them at least once, and any of them again later. -/
def Delivers (edges deliveries : List (Edge α)) : Prop := ∀ e, e ∈ deliveries ↔ e ∈ edges

namespace Context

variable {c : Context α} {e e' : Edge α}

theorem addEdge_snd (c : Context α) (e : Edge α) : (c.addEdge e).2 =
    if e.fault?.isSome = true then c
    else { c with graph := c.graph.put e, clock := c.clock.observe e.timestamp } := by
  rw [addEdge_eq]
  cases e.fault? <;> rfl

/-- **Edges of different pairs are put into a context in either order.** -/
theorem addEdge_comm (h : e.arc ≠ e'.arc) :
    ((c.addEdge e).2.addEdge e').2 = ((c.addEdge e').2.addEdge e).2 := by
  simp only [addEdge_snd]
  split_ifs
  · rfl
  · rfl
  · rfl
  · simp only [Graph.put_comm h, Clock.observe_comm c.clock e.timestamp]

/-- **An edge that is put into a context again changes nothing.** -/
theorem addEdge_addEdge (c : Context α) (e : Edge α) :
    ((c.addEdge e).2.addEdge e).2 = (c.addEdge e).2 := by
  simp only [addEdge_snd]
  split_ifs
  · rfl
  · simp only [Graph.put_put, Clock.observe_observe]

variable [Logarithm α]

theorem run_add (c : Context α) (l : List (Edge α)) :
    c.run (l.map .add) = (l.map Edge.receipt, l.foldl (fun c e => (c.addEdge e).2) c) := by
  induction l generalizing c with
  | nil => rfl
  | cons e rest ih =>
    have hstep : c.step (.add e) = (e.receipt, (c.addEdge e).2) := by
      have hadd : c.step (.add e) = ((c.addEdge e).1.map fun _ => .done, (c.addEdge e).2) := rfl
      rw [hadd, addEdge_eq, Edge.receipt]
      cases e.fault? <;> rfl
    rw [List.map_cons, run, hstep]
    simp only [ih, List.map_cons, List.foldl_cons]

/-- **The order in which edges of different pairs arrive leaves no trace**, nor do repetitions. -/
theorem delivery_order (c : Context α) {edges : List (Edge α)}
    (hpairs : edges.Pairwise (·.arc ≠ ·.arc)) {l l' : List (Edge α)} (hl : Delivers edges l)
    (hl' : Delivers edges l') :
    (c.run (l.map .add)).1 = l.map Edge.receipt ∧ (c.run (l'.map .add)).1 = l'.map Edge.receipt ∧
    (c.run (l.map .add)).2 = (c.run (l'.map .add)).2 ∧
    ∀ later : List (Operation α),
      (c.run (l.map .add)).2.run later = (c.run (l'.map .add)).2.run later := by
  have : Std.Symm fun e e' : Edge α => e.arc ≠ e'.arc := ⟨fun _ _ => Ne.symm⟩
  have hcomm : ∀ e ∈ l, ∀ e' ∈ l, ∀ c : Context α,
      ((c.addEdge e).2.addEdge e').2 = ((c.addEdge e').2.addEdge e).2 := by
    intro e he e' he' c
    by_cases h : e = e'
    · rw [h]
    · exact addEdge_comm (hpairs.forall ((hl e).mp he) ((hl e').mp he') h)
  have hafter : (c.run (l.map .add)).2 = (c.run (l'.map .add)).2 := by
    rw [run_add, run_add]
    exact foldl_eq_of_mem_iff hcomm (fun e _ c => c.addEdge_addEdge e)
      (fun e => (hl e).trans (hl' e).symm) c
  exact ⟨by rw [run_add], by rw [run_add], hafter, fun later => by rw [hafter]⟩

section Arrivals

/-- An edge that brings a revoked pair back, another one with its target, and one above the highest
level. -/
def arrivals : List (Edge Float) :=
  [⟨3246643754, 2416186773, 1, 6, 2, 3, 100⟩, ⟨8, 2416186773, -1, 7, 0, 1, 90⟩, towering]

/-- The same edges from the last to the first, some of them twice. -/
def lateArrivals : List (Edge Float) :=
  [towering, ⟨8, 2416186773, -1, 7, 0, 1, 90⟩, towering,
    ⟨3246643754, 2416186773, 1, 6, 2, 3, 100⟩, ⟨8, 2416186773, -1, 7, 0, 1, 90⟩]

/-- Either way the revoked edge is back, the clock shows the later time, and one edge is refused. -/
theorem delivery_order_arrivals :
    let c := ((ofConfig Identity.preferred Config.default 0).run (revival.take 5)).2
    arrivals.Pairwise (·.arc ≠ ·.arc) ∧ Delivers arrivals lateArrivals ∧
    (c.run (arrivals.map .add)).2 = (c.run (lateArrivals.map .add)).2 ∧
    c.lookupEdge ⟨3246643754, 2416186773⟩ = none ∧
    ((c.run (lateArrivals.map .add)).2.lookupEdge ⟨3246643754, 2416186773⟩).isSome = true ∧
    (c.run (lateArrivals.map .add)).2.now = 7 ∧
    (c.run (lateArrivals.map .add)).1[0]? = some (.error (.invalidTrustLevel 4)) := by
  intro c
  have hpairs : arrivals.Pairwise (·.arc ≠ ·.arc) := by decide
  have hlate : Delivers arrivals lateArrivals := by
    intro e
    simp only [arrivals, lateArrivals, List.mem_cons, List.not_mem_nil, or_false]
    tauto
  have hfault : towering.fault? = some (.invalidTrustLevel 4) := by decide +kernel
  have hreceipt : towering.receipt = .error (.invalidTrustLevel 4) := by
    rw [Edge.receipt, hfault]
    rfl
  obtain ⟨-, hreceipts, hsame, -⟩ := delivery_order c hpairs (fun _ => Iff.rfl) hlate
  refine ⟨hpairs, hlate, hsame, by decide +kernel, by decide +kernel, by decide +kernel, ?_⟩
  rw [hreceipts, ← hreceipt]
  rfl

end Arrivals

end Context

end WebOfTrust
