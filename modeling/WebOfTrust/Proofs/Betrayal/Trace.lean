import Mathlib
import WebOfTrust.Betrayal.Cycle

/-!
# Cycles of predecessors

A walk back over predecessors that has taken as many steps as there are nodes has met a node twice,
so it goes round a cycle, and tracing lists that cycle.

* `map_source_cycleArcs`, `map_target_cycleArcs`, `cycleArcs_rotate`, `getElem?_cycleArcs`: the
  pairs of neighbours on a cycle, and on a turned one; `eq_of_isRotated_of_head?`: turned lists
  that begin alike;
* `fromLeast_eq_rotate`, `head_fromLeast_le`, `head?_eq_of_least`: a cycle from its least node on;
* `exists_walk`, `stepsBack?_between`: the nodes of a walk back, and the steps between them;
* `exists_return`: a long walk back comes back to where it ends;
* `PredecessorCycle`: distinct nodes, each the predecessor of the next;
* **`traceCycle?_of_stepsBack`**: tracing finds the cycle of predecessors that a long walk enters.
-/

namespace WebOfTrust

/-! ## Turning a cycle -/

theorem cycleArcs_eq_map (nodes : List NodeId) :
    cycleArcs nodes = (nodes.zip (nodes.rotate 1)).map fun p => ⟨p.1, p.2⟩ := by
  cases nodes with
  | nil => rfl
  | cons v rest => simp [cycleArcs]

theorem map_source_cycleArcs (nodes : List NodeId) :
    (cycleArcs nodes).map Arc.source = nodes := by
  rw [cycleArcs_eq_map, List.map_map]
  exact List.map_fst_zip (by simp)

theorem map_target_cycleArcs (nodes : List NodeId) :
    (cycleArcs nodes).map Arc.target = nodes.rotate 1 := by
  rw [cycleArcs_eq_map, List.map_map]
  exact List.map_snd_zip (by simp)

theorem cycleArcs_eq (nodes : List NodeId) :
    cycleArcs nodes = List.zipWith Arc.mk nodes (nodes.rotate 1) := by
  rw [cycleArcs_eq_map, List.zip, List.map_zipWith]

theorem cycleArcs_rotate (nodes : List NodeId) (n : ℕ) :
    cycleArcs (nodes.rotate n) = (cycleArcs nodes).rotate n := by
  rw [cycleArcs_eq, cycleArcs_eq, List.zipWith_rotate_distrib _ _ _ _ (by simp),
    List.rotate_rotate, List.rotate_rotate, Nat.add_comm]

theorem getElem?_cycleArcs {nodes : List NodeId} {i : ℕ} {u : NodeId} (hu : nodes[i]? = some u) :
    0 < nodes.length ∧ ∃ v, nodes[(i + 1) % nodes.length]? = some v ∧
      (cycleArcs nodes)[i]? = some ⟨u, v⟩ := by
  have hi : i < nodes.length := (List.getElem?_eq_some_iff.mp hu).1
  have hpos : 0 < nodes.length := (Nat.zero_le i).trans_lt hi
  obtain ⟨v, hv⟩ : ∃ v, nodes[(i + 1) % nodes.length]? = some v :=
    ⟨_, List.getElem?_eq_getElem (Nat.mod_lt _ hpos)⟩
  refine ⟨hpos, v, hv, ?_⟩
  rw [cycleArcs_eq, List.getElem?_zipWith, List.getElem?_rotate hi, hu, hv]

theorem eq_of_isRotated_of_head? {β γ : Type} {f : β → γ} {l l' : List β} (h : l ~r l')
    (hnd : (l.map f).Nodup) (hhead : (l.map f).head? = (l'.map f).head?) : l = l' := by
  obtain ⟨n, hn, rfl⟩ := List.isRotated_iff_mod.mp h
  rcases hn.eq_or_lt with rfl | hlt
  · exact (List.rotate_length l).symm
  · have hlt' : n < (l.map f).length := by rwa [List.length_map]
    rw [List.map_rotate, List.head?_rotate hlt', List.head?_eq_getElem?] at hhead
    have hzero : 0 = n := (List.getElem?_inj (by omega) hnd).mp hhead
    rw [← hzero, List.rotate_zero]

/-! ## The least node first -/

theorem leastNode_mem (first : NodeId) (rest : List NodeId) :
    leastNode first rest ∈ first :: rest := by
  induction rest generalizing first with
  | nil => simp [leastNode]
  | cons n rest ih =>
    have h := ih (if n < first then n else first)
    rw [leastNode, List.foldl_cons, ← leastNode]
    rcases List.mem_cons.mp h with h | h
    · rw [h]
      split_ifs <;> simp
    · exact List.mem_cons_of_mem _ (List.mem_cons_of_mem _ h)

theorem leastNode_le (first : NodeId) (rest : List NodeId) :
    ∀ v ∈ first :: rest, leastNode first rest ≤ v := by
  induction rest generalizing first with
  | nil => simp [leastNode]
  | cons n rest ih =>
    have h := ih (if n < first then n else first)
    rw [leastNode, List.foldl_cons, ← leastNode]
    have hfirst := h _ List.mem_cons_self
    intro v hv
    rcases List.mem_cons.mp hv with rfl | hv
    · refine UInt32.le_trans hfirst ?_
      split_ifs with hlt
      · exact UInt32.le_of_lt hlt
      · exact UInt32.le_refl v
    · rcases List.mem_cons.mp hv with rfl | hv
      · refine UInt32.le_trans hfirst ?_
        split_ifs with hlt
        · exact UInt32.le_refl v
        · exact UInt32.not_lt.mp hlt
      · exact h v (List.mem_cons_of_mem _ hv)

theorem fromLeast_eq_rotate (nodes : List NodeId) : ∃ n, fromLeast nodes = nodes.rotate n := by
  cases nodes with
  | nil => exact ⟨0, rfl⟩
  | cons first rest =>
    refine ⟨((first :: rest).takeWhile (· ≠ leastNode first rest)).length, ?_⟩
    have hsplit := List.takeWhile_append_dropWhile (p := (· ≠ leastNode first rest))
      (l := first :: rest)
    have hturn := List.rotate_append_length_eq
      ((first :: rest).takeWhile (· ≠ leastNode first rest))
      ((first :: rest).dropWhile (· ≠ leastNode first rest))
    rw [hsplit] at hturn
    exact hturn.symm

theorem head_fromLeast_le (nodes : List NodeId) (h : fromLeast nodes ≠ []) :
    ∀ v ∈ nodes, (fromLeast nodes).head h ≤ v := by
  cases nodes with
  | nil => simp
  | cons first rest =>
    have hdrop : (first :: rest).dropWhile (· ≠ leastNode first rest) ≠ [] := by
      rw [ne_eq, List.dropWhile_eq_nil_iff]
      exact fun hall => by simpa using hall _ (leastNode_mem first rest)
    have hhead : (fromLeast (first :: rest)).head h = leastNode first rest := by
      have := List.head_dropWhile_not (· ≠ leastNode first rest) hdrop
      rw [decide_eq_false_iff_not, not_not] at this
      rw [← this]
      exact List.head_append_of_ne_nil hdrop
    rw [hhead]
    exact leastNode_le first rest

theorem head?_eq_of_least {nodes nodes' : List NodeId} (h : nodes ~r nodes')
    (hleast : ∀ hn : nodes ≠ [], ∀ v ∈ nodes, nodes.head hn ≤ v)
    (hleast' : ∀ hn : nodes' ≠ [], ∀ v ∈ nodes', nodes'.head hn ≤ v) :
    nodes.head? = nodes'.head? := by
  by_cases hne : nodes = []
  · rw [hne] at h
    rw [hne, List.isRotated_nil_iff'.mp h]
  · have hne' : nodes' ≠ [] := fun hnil => hne (List.isRotated_nil_iff.mp (hnil ▸ h))
    rw [List.head?_eq_some_head hne, List.head?_eq_some_head hne', Option.some.injEq]
    exact UInt32.le_antisymm (hleast hne _ (h.mem_iff.mpr (List.head_mem hne')))
      (hleast' hne' _ (h.mem_iff.mp (List.head_mem hne)))

/-! ## Walking back -/

variable {previous : Table NodeId NodeId}

theorem stepsBack?_succ (n : ℕ) (v : NodeId) :
    stepsBack? previous (n + 1) v = (previous.get? v).bind (stepsBack? previous n) := by
  rw [stepsBack?]
  cases previous.get? v <;> rfl

theorem stepsBack?_add (a b : ℕ) (v : NodeId) :
    stepsBack? previous (a + b) v = (stepsBack? previous a v).bind (stepsBack? previous b) := by
  induction a generalizing v with
  | zero => rw [Nat.zero_add]; rfl
  | succ a ih =>
    rw [Nat.succ_add_eq_add_succ, Nat.add_succ, stepsBack?_succ, stepsBack?_succ,
      Option.bind_assoc]
    exact congrArg _ (funext ih)

theorem stepsBack?_one (v : NodeId) : stepsBack? previous 1 v = previous.get? v := by
  rw [stepsBack?_succ]
  cases previous.get? v <;> rfl

theorem isSome_stepsBack?_of_le {a b : ℕ} (hab : a ≤ b) {v : NodeId}
    (h : (stepsBack? previous b v).isSome) : (stepsBack? previous a v).isSome := by
  rw [← Nat.add_sub_cancel' hab, stepsBack?_add] at h
  cases hs : stepsBack? previous a v with
  | none => rw [hs] at h; simp at h
  | some u => rfl

theorem stepsBack?_mem {N : Finset NodeId} (hN : ∀ v u, previous.get? v = some u → u ∈ N) {n : ℕ}
    {v u : NodeId} (hv : v ∈ N) (h : stepsBack? previous n v = some u) : u ∈ N := by
  induction n generalizing v with
  | zero => cases h; exact hv
  | succ n ih =>
    rw [stepsBack?_succ, Option.bind_eq_some_iff] at h
    obtain ⟨w, hw, hu⟩ := h
    exact ih (hN v w hw) hu

theorem exists_walk {n : ℕ} {v : NodeId} (h : (stepsBack? previous n v).isSome) :
    ∃ x : ℕ → NodeId, x 0 = v ∧ ∀ i ≤ n, stepsBack? previous i v = some (x i) := by
  refine ⟨fun i => (stepsBack? previous i v).getD v, rfl, fun i hi => ?_⟩
  obtain ⟨u, hu⟩ := Option.isSome_iff_exists.mp (isSome_stepsBack?_of_le hi h)
  simp only [hu, Option.getD_some]

theorem stepsBack?_between {x : ℕ → NodeId} {n : ℕ} {v : NodeId}
    (hx : ∀ i ≤ n, stepsBack? previous i v = some (x i)) {i j : ℕ} (hij : i ≤ j) (hj : j ≤ n) :
    stepsBack? previous (j - i) (x i) = some (x j) := by
  have h := hx j hj
  rw [← Nat.add_sub_cancel' hij, stepsBack?_add, hx i (hij.trans hj),
    Nat.add_sub_cancel' hij] at h
  exact h

/-- **A long walk back comes back to where it ends**: among its nodes one occurs twice. -/
theorem exists_return {N : Finset NodeId} {bound : ℕ} (hcard : N.card ≤ bound)
    (hN : ∀ v u, previous.get? v = some u → u ∈ N) {start stop : NodeId} (hstart : start ∈ N)
    (h : stepsBack? previous bound start = some stop) :
    ∃ k, 0 < k ∧ k ≤ bound ∧ stepsBack? previous k stop = some stop := by
  have hsome : (stepsBack? previous bound start).isSome := by rw [h]; rfl
  obtain ⟨x, -, hx⟩ := exists_walk hsome
  have hmaps : Set.MapsTo x (Finset.range (bound + 1)) N := by
    intro i hi
    have hi' : i ≤ bound := Nat.lt_succ_iff.mp (Finset.mem_range.mp hi)
    exact stepsBack?_mem hN hstart (hx i hi')
  have hlt : N.card < (Finset.range (bound + 1)).card := by
    rw [Finset.card_range]
    omega
  obtain ⟨i, hi, j, hj, hne, heq⟩ := Finset.exists_ne_map_eq_of_card_lt_of_maps_to hlt hmaps
  wlog hij : i < j generalizing i j
  · exact this j hj i hi hne.symm heq.symm (by omega)
  have hjb : j ≤ bound := Nat.lt_succ_iff.mp (Finset.mem_range.mp hj)
  -- From the node met twice, the steps between the two meetings lead back to it.
  have hround : stepsBack? previous (j - i) (x i) = some (x i) := by
    rw [stepsBack?_between hx hij.le hjb, heq]
  have hlast : stepsBack? previous (bound - i) (x i) = some stop := by
    rw [stepsBack?_between hx (hij.le.trans hjb) le_rfl, ← hx bound le_rfl, h]
  refine ⟨j - i, by omega, by omega, ?_⟩
  calc stepsBack? previous (j - i) stop
      = (stepsBack? previous (bound - i) (x i)).bind (stepsBack? previous (j - i)) := by
        rw [hlast]; rfl
    _ = (stepsBack? previous (j - i) (x i)).bind (stepsBack? previous (bound - i)) := by
        rw [← stepsBack?_add, Nat.add_comm, stepsBack?_add]
    _ = some stop := by rw [hround]; exact hlast

/-! ## Cycles of predecessors -/

/-- Distinct nodes, each the predecessor of the next one and the last of the first. -/
structure PredecessorCycle (previous : Table NodeId NodeId) (nodes : List NodeId) : Prop where
  nonempty : nodes ≠ []
  nodup : nodes.Nodup
  linked : ∀ a ∈ cycleArcs nodes, previous.get? a.target = some a.source

theorem PredecessorCycle.rotate {nodes : List NodeId} (h : PredecessorCycle previous nodes)
    (n : ℕ) : PredecessorCycle previous (nodes.rotate n) where
  nonempty := by simpa using h.nonempty
  nodup := List.nodup_rotate.mpr h.nodup
  linked a ha := by
    rw [cycleArcs_rotate, List.mem_rotate] at ha
    exact h.linked a ha

/-- Some first nodes of a walk back, in the direction of the edges. -/
def forward (x : ℕ → NodeId) (k : ℕ) : List NodeId := ((List.range k).map x).reverse

theorem forward_succ (x : ℕ → NodeId) (k : ℕ) : forward x (k + 1) = x k :: forward x k := by
  simp [forward, List.range_succ]

@[simp] theorem length_forward (x : ℕ → NodeId) (k : ℕ) : (forward x k).length = k := by
  simp [forward]

theorem getElem?_forward (x : ℕ → NodeId) {i k : ℕ} (hi : i < k) :
    (forward x k)[i]? = some (x (k - 1 - i)) := by
  rw [forward, List.getElem?_reverse (by simpa using hi), List.getElem?_map,
    List.getElem?_range (by simp; omega)]
  simp

theorem linked_forward {x : ℕ → NodeId} {k : ℕ}
    (hx : ∀ i < k, previous.get? (x i) = some (x (i + 1))) (hk : x k = x 0) :
    ∀ a ∈ cycleArcs (forward x k), previous.get? a.target = some a.source := by
  intro a ha
  rw [cycleArcs_eq] at ha
  obtain ⟨i, hi, rfl⟩ := List.mem_iff_getElem.mp ha
  have hik : i < k := by simpa [forward] using hi
  simp only [List.getElem_zipWith, List.getElem_rotate, forward, List.length_reverse,
    List.length_map, List.length_range, List.getElem_reverse, List.getElem_map,
    List.getElem_range]
  by_cases hlast : i + 1 = k
  · rw [hlast, Nat.mod_self, show k - 1 - 0 = i by omega, show k - 1 - i = 0 by omega, ← hk,
      ← hlast]
    exact hx i hik
  · rw [Nat.mod_eq_of_lt (by omega), show k - 1 - i = k - 1 - (i + 1) + 1 by omega]
    exact hx _ (by omega)

theorem walkBack?_forward {x : ℕ → NodeId} {k : ℕ}
    (hx : ∀ i < k, previous.get? (x i) = some (x (i + 1))) (hk : x k = x 0)
    (hne : ∀ i, 0 < i → i < k → x i ≠ x 0) (bound : ℕ) {m : ℕ} (hm : 0 < m) (hmk : m ≤ k)
    (hb : k - m ≤ bound) :
    walkBack? previous (x 0) bound (x m) (forward x m) = some (forward x k) := by
  induction bound generalizing m with
  | zero =>
    obtain rfl : m = k := by omega
    rw [walkBack?, if_pos hk]
  | succ bound ih =>
    rw [walkBack?]
    rcases hmk.eq_or_lt with rfl | hlt
    · rw [if_pos hk]
    · rw [if_neg (hne m hm hlt), hx m hlt, ← forward_succ]
      exact ih (by omega) hlt (by omega)

/-- The nodes from which a long walk back goes round, distinct up to the first return. -/
theorem exists_orbit {N : Finset NodeId} {bound : ℕ} (hcard : N.card ≤ bound)
    (hN : ∀ v u, previous.get? v = some u → u ∈ N) {start stop : NodeId} (hstart : start ∈ N)
    (h : stepsBack? previous bound start = some stop) :
    ∃ (x : ℕ → NodeId) (k : ℕ), 0 < k ∧ k ≤ bound ∧ x 0 = stop ∧ x k = x 0 ∧
      (∀ i < k, previous.get? (x i) = some (x (i + 1))) ∧ ∀ i j, i < j → j < k → x i ≠ x j := by
  obtain ⟨m, hm, hmb, hms⟩ := exists_return hcard hN hstart h
  have hreturn : ∃ k, 0 < k ∧ stepsBack? previous k stop = some stop := ⟨m, hm, hms⟩
  classical
  obtain ⟨hpos, hk⟩ := Nat.find_spec hreturn
  have hmin : ∀ n, 0 < n → stepsBack? previous n stop = some stop → Nat.find hreturn ≤ n :=
    fun n hn hs => Nat.find_min' hreturn ⟨hn, hs⟩
  set k := Nat.find hreturn
  have hsome : (stepsBack? previous k stop).isSome := by rw [hk]; rfl
  obtain ⟨x, hx0, hx⟩ := exists_walk hsome
  have hxk : x k = x 0 := by
    rw [hx0]
    exact Option.some.inj ((hx k le_rfl).symm.trans hk)
  refine ⟨x, k, hpos, (hmin m hm hms).trans hmb, hx0, hxk, fun i hi => ?_,
    fun i j hij hjk heq => ?_⟩
  · have hstep := stepsBack?_between hx (Nat.le_succ i) hi
    rwa [Nat.succ_eq_add_one, Nat.add_sub_cancel_left, stepsBack?_one] at hstep
  · -- Equal nodes before the return would give an earlier return.
    have hback : stepsBack? previous (i + (k - j)) stop = some stop := by
      rw [stepsBack?_add, hx i (by omega), heq, Option.bind_some,
        stepsBack?_between hx hjk.le le_rfl, hxk, hx0]
    have hle := hmin _ (by omega) hback
    omega

theorem predecessorCycle_forward {x : ℕ → NodeId} {k : ℕ} (hpos : 0 < k)
    (hx : ∀ i < k, previous.get? (x i) = some (x (i + 1))) (hk : x k = x 0)
    (hinj : ∀ i j, i < j → j < k → x i ≠ x j) : PredecessorCycle previous (forward x k) where
  nonempty hnil := by
    have hlength := congrArg List.length hnil
    rw [length_forward, List.length_nil] at hlength
    omega
  nodup := by
    refine List.nodup_reverse.mpr (List.Nodup.map_on (fun i hi j hj heq => ?_) List.nodup_range)
    rw [List.mem_range] at hi hj
    rcases Nat.lt_trichotomy i j with hij | hij | hij
    · exact absurd heq (hinj i j hij hj)
    · exact hij
    · exact absurd heq.symm (hinj j i hij hi)
  linked := linked_forward hx hk

/-- **Tracing finds the cycle of predecessors that a long enough walk back enters.** -/
theorem traceCycle?_of_stepsBack {N : Finset NodeId} {bound : ℕ} (hcard : N.card ≤ bound)
    (hN : ∀ v u, previous.get? v = some u → u ∈ N) {start stop : NodeId} (hstart : start ∈ N)
    (h : stepsBack? previous bound start = some stop) :
    ∃ nodes, traceCycle? previous start bound = some nodes ∧ PredecessorCycle previous nodes ∧
      (∀ hn : nodes ≠ [], ∀ v ∈ nodes, nodes.head hn ≤ v) ∧ stop ∈ nodes := by
  obtain ⟨x, k, hpos, hbound, rfl, hk, hx, hinj⟩ := exists_orbit hcard hN hstart h
  have hne : ∀ i, 0 < i → i < k → x i ≠ x 0 := fun i hi hik heq => hinj 0 i hi hik heq.symm
  obtain ⟨n, hn⟩ := fromLeast_eq_rotate (forward x k)
  refine ⟨fromLeast (forward x k), ?_, ?_, fun hnil v hv => ?_, ?_⟩
  · have hwalk := walkBack?_forward hx hk hne bound Nat.one_pos hpos (by omega)
    rw [traceCycle?, h]
    simp only [hx 0 hpos]
    rw [show [x 0] = forward x 1 from rfl, hwalk]
    rfl
  · rw [hn]
    exact (predecessorCycle_forward hpos hx hk hinj).rotate n
  · rw [hn, List.mem_rotate] at hv
    exact head_fromLeast_le _ hnil v hv
  · rw [hn, List.mem_rotate, forward, List.mem_reverse, List.mem_map]
    exact ⟨0, List.mem_range.mpr hpos, rfl⟩

theorem exists_stepsBack_of_traceCycle? {start : NodeId} {bound : ℕ} {nodes : List NodeId}
    (h : traceCycle? previous start bound = some nodes) :
    ∃ stop, stepsBack? previous bound start = some stop := by
  unfold traceCycle? at h
  split at h
  next => cases h
  next stop hs => exact ⟨stop, hs⟩

end WebOfTrust
