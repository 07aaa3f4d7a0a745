import Mathlib
import WebOfTrust.Proofs.Betrayal.Trace

/-!
# Tracing is exact

A walk back over predecessors leaves the map, or else goes round a cycle in the end. It enters no
other cycle, for a cycle with one node of the walk has all later ones. So tracing, which takes as
many steps back as there are nodes, finds just this cycle.

* `WalkBack`: a walk back that never leaves the map; `exists_walkBack_iff`;
* **`PredecessorCycle.isRotated`**: cycles of predecessors that have a node in common are the same,
  but for a turn;
* `Closes`: the second loop of tracing comes to its end and its guard never holds it up;
  **`walkBack?_eq_some_iff`**;
* `EntersCycle`: the cycle that a walk back enters, from its least node on;
  **`tracing_exact`**: this is what tracing finds.
-/

namespace WebOfTrust

variable {previous : Table NodeId NodeId} {start u v : NodeId} {nodes nodes' : List NodeId}
  {x : ℕ → NodeId}

/-! ## Endless walks -/

/-- A walk back that never leaves the map. -/
structure WalkBack (previous : Table NodeId NodeId) (start : NodeId) (x : ℕ → NodeId) : Prop where
  start : x 0 = start
  step : ∀ i, previous.get? (x i) = some (x (i + 1))

theorem WalkBack.stepsBack?_eq (h : WalkBack previous start x) (i : ℕ) :
    stepsBack? previous i start = some (x i) := by
  induction i with
  | zero => exact congrArg some h.start.symm
  | succ i ih => rw [stepsBack?_add, ih, Option.bind_some, stepsBack?_one, h.step]

theorem exists_walkBack_iff :
    (∃ x, WalkBack previous start x) ↔ ∀ i, (stepsBack? previous i start).isSome := by
  constructor
  · rintro ⟨x, hx⟩ i
    rw [hx.stepsBack?_eq i]
    rfl
  · intro h
    choose x hx using fun i => Option.isSome_iff_exists.mp (h i)
    refine ⟨x, (Option.some.inj (hx 0)).symm, fun i => ?_⟩
    rw [← stepsBack?_one, ← hx (i + 1), stepsBack?_add, hx i, Option.bind_some]

theorem WalkBack.of_stepsBack? {i : ℕ} (h : stepsBack? previous i start = some v)
    (hx : WalkBack previous v x) : ∃ y, WalkBack previous start y := by
  refine exists_walkBack_iff.mpr fun j => isSome_stepsBack?_of_le (Nat.le_add_left j i) ?_
  rw [stepsBack?_add, h, Option.bind_some, hx.stepsBack?_eq]
  rfl

/-! ## Walks around a cycle -/

namespace PredecessorCycle

theorem previous_getElem? (h : PredecessorCycle previous nodes) {i : ℕ} (hu : nodes[i]? = some u)
    (hv : nodes[(i + 1) % nodes.length]? = some v) : previous.get? v = some u := by
  obtain ⟨-, w, hw, harc⟩ := getElem?_cycleArcs hu
  obtain rfl : w = v := Option.some.inj (hw.symm.trans hv)
  exact h.linked ⟨u, w⟩ (List.mem_of_getElem? harc)

theorem exists_previous (h : PredecessorCycle previous nodes) (hv : v ∈ nodes) :
    ∃ u ∈ nodes, previous.get? v = some u := by
  rw [← List.mem_rotate (n := 1), ← map_target_cycleArcs] at hv
  obtain ⟨a, ha, rfl⟩ := List.mem_map.mp hv
  have hsource : a.source ∈ nodes := by
    rw [← map_source_cycleArcs nodes]
    exact List.mem_map_of_mem ha
  exact ⟨a.source, hsource, h.linked a ha⟩

theorem exists_walkBack (h : PredecessorCycle previous nodes) (hv : v ∈ nodes) :
    ∃ x, WalkBack previous v x := by
  refine exists_walkBack_iff.mpr fun i => ?_
  induction i generalizing v with
  | zero => rfl
  | succ i ih =>
    obtain ⟨u, hu, hprevious⟩ := h.exists_previous hv
    rw [stepsBack?_succ, hprevious]
    exact ih hu

theorem mem_of_walkBack (h : PredecessorCycle previous nodes) (hx : WalkBack previous start x)
    {i j : ℕ} (hij : i ≤ j) (hi : x i ∈ nodes) : x j ∈ nodes := by
  induction j, hij using Nat.le_induction with
  | base => exact hi
  | succ j hij ih =>
    obtain ⟨u, hu, hprevious⟩ := h.exists_previous ih
    rw [hx.step] at hprevious
    rwa [Option.some.inj hprevious]

section Round

variable (h : PredecessorCycle previous nodes) (hx : WalkBack previous start x)
  (hlast : nodes.getLast? = some start)

include h hx hlast

theorem getElem?_of_walkBack {j : ℕ} (hj : j < nodes.length) :
    nodes[nodes.length - 1 - j]? = some (x j) := by
  induction j with
  | zero => rw [hx.start, Nat.sub_zero, ← List.getLast?_eq_getElem?, hlast]
  | succ j ih =>
    have hu : nodes[nodes.length - 1 - (j + 1)]? = some nodes[nodes.length - 1 - (j + 1)] :=
      List.getElem?_eq_getElem (by omega)
    have hplace : (nodes.length - 1 - (j + 1) + 1) % nodes.length = nodes.length - 1 - j := by
      rw [Nat.mod_eq_of_lt (by omega)]
      omega
    have hprevious : previous.get? (x j) = some nodes[nodes.length - 1 - (j + 1)] :=
      h.previous_getElem? hu (by rw [hplace, ih (by omega)])
    rw [hu, ← hprevious, hx.step]

theorem eq_forward : nodes = forward x nodes.length := by
  refine List.ext_getElem? fun i => ?_
  by_cases hi : i < nodes.length
  · have hturn : nodes.length - 1 - (nodes.length - 1 - i) = i := by omega
    have hnode := h.getElem?_of_walkBack hx hlast (j := nodes.length - 1 - i) (by omega)
    rw [hturn] at hnode
    rw [hnode, getElem?_forward x hi]
  · rw [List.getElem?_eq_none (by omega), List.getElem?_eq_none (by rw [length_forward]; omega)]

theorem walkBack_length : x nodes.length = start := by
  have hpos : 0 < nodes.length := List.length_pos_of_ne_nil h.nonempty
  have hfirst := h.getElem?_of_walkBack hx hlast (j := nodes.length - 1) (by omega)
  have hzero : (nodes.length - 1 + 1) % nodes.length = nodes.length - 1 - (nodes.length - 1) := by
    rw [Nat.sub_add_cancel hpos, Nat.mod_self, Nat.sub_self]
  rw [List.getLast?_eq_getElem?] at hlast
  have hprevious := h.previous_getElem? hlast (by rw [hzero]; exact hfirst)
  rw [hx.step, Nat.sub_add_cancel hpos] at hprevious
  exact Option.some.inj hprevious

end Round

theorem exists_getLast? (h : PredecessorCycle previous nodes) (hv : v ∈ nodes) :
    ∃ turned, nodes ~r turned ∧ PredecessorCycle previous turned ∧ turned.getLast? = some v := by
  obtain ⟨a, b, rfl⟩ := List.append_of_mem hv
  have hturn : (a ++ v :: b).rotate (a ++ [v]).length = b ++ (a ++ [v]) := by
    rw [List.append_cons, List.rotate_append_length_eq]
  refine ⟨b ++ (a ++ [v]), ⟨_, hturn⟩, hturn ▸ h.rotate _, ?_⟩
  rw [← List.append_assoc, List.getLast?_concat]

theorem length_le_of_return (h : PredecessorCycle previous nodes)
    (hforward : nodes = forward x nodes.length) {k : ℕ} (hpos : 0 < k) (hk : x k = x 0) :
    nodes.length ≤ k := by
  by_contra hlt
  have hnodup := h.nodup
  rw [hforward, forward, List.nodup_reverse] at hnodup
  have hzero := List.inj_on_of_nodup_map hnodup (List.mem_range.mpr (not_le.mp hlt))
    (List.mem_range.mpr (hpos.trans (not_le.mp hlt))) hk
  omega

/-- **Cycles of predecessors that have a node in common are the same**, but for a turn. -/
theorem isRotated (h : PredecessorCycle previous nodes) (h' : PredecessorCycle previous nodes')
    (hv : v ∈ nodes) (hv' : v ∈ nodes') : nodes ~r nodes' := by
  obtain ⟨x, hx⟩ := h.exists_walkBack hv
  obtain ⟨l, hl, hcycle, hlast⟩ := h.exists_getLast? hv
  obtain ⟨l', hl', hcycle', hlast'⟩ := h'.exists_getLast? hv'
  -- Both are the nodes of the walk from the common one up to its first return.
  have hforward := hcycle.eq_forward hx hlast
  have hforward' := hcycle'.eq_forward hx hlast'
  have hreturn : x l.length = x 0 := (hcycle.walkBack_length hx hlast).trans hx.start.symm
  have hreturn' : x l'.length = x 0 := (hcycle'.walkBack_length hx hlast').trans hx.start.symm
  have hlength : l.length = l'.length := le_antisymm
    (hcycle.length_le_of_return hforward (List.length_pos_of_ne_nil hcycle'.nonempty) hreturn')
    (hcycle'.length_le_of_return hforward' (List.length_pos_of_ne_nil hcycle.nonempty) hreturn)
  have heq : l = l' := by rw [hforward, hforward', hlength]
  exact hl.trans (heq ▸ hl'.symm)

end PredecessorCycle

/-! ## The guard -/

/-- The second loop of tracing comes from a node, with some nodes listed, to the node where it
stops, with all of them listed. Its guard, which ends it when more than `n` nodes are listed, is
tested at each turn and never met. -/
inductive Closes (previous : Table NodeId NodeId) (n : ℕ) (stop : NodeId) :
    NodeId → List NodeId → List NodeId → Prop
  | closed (path : List NodeId) : Closes previous n stop stop path path
  | back {node before : NodeId} {path nodes : List NodeId} (hne : node ≠ stop)
      (hguard : path.length ≤ n) (hbefore : previous.get? node = some before)
      (hrest : Closes previous n stop before (node :: path) nodes) :
      Closes previous n stop node path nodes

/-- **The guard counts the turns of the loop**: it holds the loop up when its turns run out. -/
theorem walkBack?_eq_some_iff {n bound : ℕ} {stop node : NodeId} {path : List NodeId}
    (hbound : path.length + bound = n + 1) :
    walkBack? previous stop bound node path = some nodes ↔
      Closes previous n stop node path nodes := by
  constructor
  · intro h
    induction bound generalizing node path with
    | zero =>
      rw [walkBack?] at h
      split_ifs at h with hstop
      obtain rfl := Option.some.inj h
      rw [hstop]
      exact .closed path
    | succ bound ih =>
      rw [walkBack?] at h
      split_ifs at h with hstop
      · obtain rfl := Option.some.inj h
        rw [hstop]
        exact .closed path
      · cases hbefore : previous.get? node with
        | none => simp only [hbefore, reduceCtorEq] at h
        | some before =>
          simp only [hbefore] at h
          refine .back hstop (by omega) hbefore (ih ?_ h)
          rw [List.length_cons]
          omega
  · intro h
    induction h generalizing bound with
    | closed path => cases bound <;> exact if_pos rfl
    | back hne hguard hbefore hrest ih =>
      obtain ⟨bound, rfl⟩ := Nat.exists_eq_add_of_le' (show 1 ≤ bound by omega)
      rw [walkBack?, if_neg hne]
      simp only [hbefore]
      refine ih ?_
      rw [List.length_cons]
      omega

/-! ## The cycle that a walk enters -/

/-- The cycle of predecessors that the walk back from a node enters, from its least node on. -/
structure EntersCycle (previous : Table NodeId NodeId) (start : NodeId) (nodes : List NodeId) :
    Prop where
  cycle : PredecessorCycle previous nodes
  least : ∀ hn : nodes ≠ [], ∀ v ∈ nodes, nodes.head hn ≤ v
  entered : ∃ i, ∃ v ∈ nodes, stepsBack? previous i start = some v

theorem EntersCycle.exists_walkBack (h : EntersCycle previous start nodes) :
    ∃ x, WalkBack previous start x := by
  obtain ⟨i, v, hv, hstart⟩ := h.entered
  obtain ⟨y, hy⟩ := h.cycle.exists_walkBack hv
  exact WalkBack.of_stepsBack? hstart hy

/-- **A walk enters a single cycle**, however that is listed. -/
theorem EntersCycle.isRotated (h : EntersCycle previous start nodes)
    (h' : PredecessorCycle previous nodes')
    (hentered : ∃ i, ∃ v ∈ nodes', stepsBack? previous i start = some v) : nodes ~r nodes' := by
  obtain ⟨x, hx⟩ := h.exists_walkBack
  obtain ⟨i, v, hv, hi⟩ := h.entered
  obtain ⟨j, v', hv', hj⟩ := hentered
  obtain rfl : x i = v := Option.some.inj ((hx.stepsBack?_eq i).symm.trans hi)
  obtain rfl : x j = v' := Option.some.inj ((hx.stepsBack?_eq j).symm.trans hj)
  exact h.cycle.isRotated h' (h.cycle.mem_of_walkBack hx (le_max_left i j) hv)
    (h'.mem_of_walkBack hx (le_max_right i j) hv')

theorem EntersCycle.unique (h : EntersCycle previous start nodes)
    (h' : EntersCycle previous start nodes') : nodes = nodes' := by
  have hturned := h.isRotated h'.cycle h'.entered
  refine eq_of_isRotated_of_head? (f := id) hturned (by simpa using h.cycle.nodup) ?_
  rw [List.map_id, List.map_id]
  exact head?_eq_of_least hturned h.least h'.least

theorem exists_entersCycle_of_stepsBack? {n : ℕ} {stop : NodeId}
    (hcard : (insert start (previous.keys ++ previous.values).toFinset).card ≤ n)
    (h : stepsBack? previous n start = some stop) :
    ∃ nodes, traceCycle? previous start n = some nodes ∧ EntersCycle previous start nodes := by
  have hN (v u : NodeId) (hu : previous.get? v = some u) :
      u ∈ insert start (previous.keys ++ previous.values).toFinset := by
    have hvalue : u ∈ previous.values := List.mem_map_of_mem (Table.mem_entries_iff.mpr hu)
    simp [hvalue]
  obtain ⟨nodes, htrace, hcycle, hleast, hstop⟩ :=
    traceCycle?_of_stepsBack hcard hN (Finset.mem_insert_self _ _) h
  exact ⟨nodes, htrace, hcycle, hleast, n, stop, hstop, h⟩

/-- **Tracing is exact**: it finds the cycle that the walk back enters, if it enters one. -/
theorem tracing_exact (previous : Table NodeId NodeId) (start : NodeId) (n : ℕ)
    (hcard : (insert start (previous.keys ++ previous.values).toFinset).card ≤ n) :
    ((∃ nodes, traceCycle? previous start n = some nodes) ↔ ∃ x, WalkBack previous start x) ∧
    (∀ nodes, traceCycle? previous start n = some nodes ↔ EntersCycle previous start nodes) ∧
    (∀ nodes other, traceCycle? previous start n = some nodes → PredecessorCycle previous other →
      (∃ i, ∃ v ∈ other, stepsBack? previous i start = some v) → nodes ~r other) ∧
    ∀ stop, stepsBack? previous n start = some stop → ∃ before nodes,
      previous.get? stop = some before ∧ Closes previous n stop before [stop] nodes ∧
      traceCycle? previous start n = some (fromLeast nodes) := by
  have htraced {stop : NodeId} (h : stepsBack? previous n start = some stop) :=
    exists_entersCycle_of_stepsBack? hcard h
  have hentered {nodes : List NodeId} (h : traceCycle? previous start n = some nodes) :
      EntersCycle previous start nodes := by
    obtain ⟨stop, hstop⟩ := exists_stepsBack_of_traceCycle? h
    obtain ⟨nodes', htrace, henters⟩ := htraced hstop
    rwa [Option.some.inj (h.symm.trans htrace)]
  refine ⟨⟨?_, ?_⟩, fun nodes => ⟨hentered, ?_⟩, fun _ _ h => (hentered h).isRotated, ?_⟩
  · rintro ⟨nodes, h⟩
    exact (hentered h).exists_walkBack
  · rintro ⟨x, hx⟩
    obtain ⟨nodes, htrace, -⟩ := htraced (hx.stepsBack?_eq n)
    exact ⟨nodes, htrace⟩
  · intro h
    obtain ⟨x, hx⟩ := h.exists_walkBack
    obtain ⟨nodes', htrace, henters⟩ := htraced (hx.stepsBack?_eq n)
    rw [htrace, h.unique henters]
  · intro stop hstop
    obtain ⟨nodes, htrace, -⟩ := htraced hstop
    have hloop := htrace
    rw [traceCycle?, hstop] at hloop
    cases hbefore : previous.get? stop with
    | none => simp [hbefore] at hloop
    | some before =>
      simp only [hbefore, Option.map_eq_some_iff] at hloop
      obtain ⟨path, hpath, rfl⟩ := hloop
      exact ⟨before, path, rfl, (walkBack?_eq_some_iff (Nat.add_comm 1 n)).mp hpath, htrace⟩

section Lasso

/-- Predecessors that lead from a tail of two nodes into a cycle of three. -/
def lasso : Table NodeId NodeId :=
  ((((Table.empty.insert 1 8).insert 8 9).insert 9 5).insert 5 7).insert 7 9

/-- The walk back from the end of the tail is traced to the cycle, in the direction of the edges. -/
theorem tracing_exact_lasso :
    (insert 1 (lasso.keys ++ lasso.values).toFinset).card ≤ 5 ∧
      EntersCycle lasso 1 [5, 9, 7] ∧ (∃ x, WalkBack lasso 1 x) ∧
      ∃ before nodes, lasso.get? 9 = some before ∧ Closes lasso 5 9 before [9] nodes := by
  have hcard : (insert 1 (lasso.keys ++ lasso.values).toFinset).card ≤ 5 := by decide
  have htrace : traceCycle? lasso 1 5 = some [5, 9, 7] := by decide
  have hstop : stepsBack? lasso 5 1 = some 9 := by decide
  obtain ⟨hsome, hexact, -, hclosed⟩ := tracing_exact lasso 1 5 hcard
  obtain ⟨before, nodes, hbefore, hcloses, -⟩ := hclosed 9 hstop
  exact ⟨hcard, (hexact _).mp htrace, hsome.mp ⟨_, htrace⟩, before, nodes, hbefore, hcloses⟩

end Lasso

end WebOfTrust
