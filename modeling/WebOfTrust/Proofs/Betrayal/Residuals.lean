import WebOfTrust.Proofs.Betrayal.Completeness

/-!
# No relaxation is dropped

The last pass of a search skips a relaxation that hangs off no cycle of predecessors, a cycle that
lacks an edge and one that is not negative. Over exact rationals it never does so: at every moment
of the search the cycles of predecessors are cycles of live edges, and negative by more than the
slack.

* `Search.after`: the search after some passes; **`Search.passes?_eq_some_iff`**: when all of them
  are made;
* `Findings.strict?`: a step that fails instead of skipping a relaxation;
  **`Findings.foldlM_strict?`**: when no step of a pass fails;
* `Graph.moment`, `Graph.lastFindings`: the search and the last pass, edge by edge;
  **`Graph.worstCycle?_eq_lastFindings`**: an early end loses nothing;
* **`Graph.Built.exists_negative_of_predecessorCycle`**: cycles of predecessors at every moment;
* **`Graph.Built.no_residual_dropped`**: what the last pass makes of its relaxations, and when it
  finds no cycle.
-/

namespace WebOfTrust

variable {α : Type} [Arith α]

/-! ## Whole passes -/

namespace Search

/-- The search after a number of passes, whether or not they relax anything. -/
def after (edges : List (Edge α)) : ℕ → Search α → Search α
  | 0, s => s
  | n + 1, s => after edges n (s.pass edges).1

variable {edges : List (Edge α)} {s s' : Search α} {k n : ℕ}

theorem pass_fst_of_residuals (h : s.residuals edges = []) : (s.pass edges).1 = s := by
  rw [residuals_eq_nil_iff] at h
  induction edges with
  | nil => rfl
  | cons e rest ih =>
    obtain ⟨he, hrest⟩ := List.forall_mem_cons.mp h
    rw [pass_cons_none he, ih hrest]

theorem after_eq_self (h : s.residuals edges = []) (n : ℕ) : after edges n s = s := by
  induction n with
  | zero => rfl
  | succ n ih => rw [after, pass_fst_of_residuals h, ih]

theorem after_of_residuals (h : (after edges k s).residuals edges = []) (hkn : k ≤ n) :
    after edges n s = after edges k s := by
  obtain ⟨m, rfl⟩ := Nat.exists_eq_add_of_le hkn
  clear hkn
  induction k generalizing s with
  | zero =>
    rw [Nat.zero_add]
    exact after_eq_self h m
  | succ k ih =>
    rw [Nat.succ_add]
    exact ih h

/-- **A number of passes are made just when each of them relaxes an edge.** -/
theorem passes?_eq_some_iff :
    passes? edges n s = some s' ↔
      (∀ k < n, (after edges k s).residuals edges ≠ []) ∧ s' = after edges n s := by
  induction n generalizing s with
  | zero =>
    rw [passes?, after, Option.some.injEq, eq_comm]
    exact ⟨fun h => ⟨fun k hk => absurd hk (Nat.not_lt_zero k), h⟩, fun h => h.2⟩
  | succ n ih =>
    rw [passes?]
    dsimp only
    split_ifs with hchanged
    · have hfirst : (after edges 0 s).residuals edges ≠ [] := (pass_snd_iff s edges).mp hchanged
      rw [ih, Nat.forall_lt_succ_left']
      exact ⟨fun h => ⟨⟨hfirst, h.1⟩, h.2⟩, fun h => ⟨h.1.2, h.2⟩⟩
    · refine iff_of_false (by simp) fun h => ?_
      exact hchanged ((pass_snd_iff s edges).mpr (h.1 0 (Nat.succ_pos n)))

theorem pass_snd_eq_false_iff : (s.pass edges).2 = false ↔ s.residuals edges = [] := by
  rw [← Bool.not_eq_true, pass_snd_iff, not_ne_iff]

theorem exists_residuals_eq_nil_iff :
    (∃ k < n + 1, (after edges k s).residuals edges = []) ↔
      (after edges n s).residuals edges = [] := by
  constructor
  · rintro ⟨k, hk, hnil⟩
    rw [after_of_residuals hnil (Nat.le_of_lt_succ hk), hnil]
  · exact fun hnil => ⟨n, Nat.lt_succ_self n, hnil⟩

theorem passes?_eq_none_iff :
    passes? edges n s = none ↔ ∃ k < n, (after edges k s).residuals edges = [] := by
  rw [Option.eq_none_iff_forall_ne_some]
  simp only [ne_eq, passes?_eq_some_iff, not_and]
  constructor
  · intro h
    by_contra hnone
    push Not at hnone
    exact h _ hnone rfl
  · rintro ⟨k, hk, hnil⟩ s' hall
    exact absurd hnil (hall k hk)

theorem residuals_after_of_passes? (h : passes? edges n s = none) :
    (after edges n s).residuals edges = [] := by
  obtain ⟨k, hk, hnil⟩ := passes?_eq_none_iff.mp h
  rw [after_of_residuals hnil hk.le, hnil]

theorem residuals_append (s : Search α) (first rest : List (Edge α)) :
    s.residuals (first ++ rest) = s.residuals first ++ (s.pass first).1.residuals rest := by
  induction first generalizing s with
  | nil => rfl
  | cons e first ih =>
    rw [List.cons_append]
    cases he : s.relax? e with
    | none => rw [residuals_cons_none he, residuals_cons_none he, pass_cons_none he, ih]
    | some s' =>
      rw [residuals_cons_some he, residuals_cons_some he, pass_cons_some he, ih, List.cons_append]

theorem Keeps.mono {I : Search α → Prop} {first : List (Edge α)} (hI : Keeps edges I)
    (h : first ⊆ edges) : Keeps first I :=
  fun e he => hI e (h he)

theorem after_induct {I : Search α → Prop} (hI : Keeps edges I) (hs : I s) (n : ℕ) :
    I (after edges n s) := by
  induction n generalizing s with
  | zero => exact hs
  | succ n ih => exact ih (pass_induct hI hs)

end Search

/-! ## A pass without guards -/

namespace Findings

variable (g : Graph α) (now : Instant) (bound : ℕ) {f : Findings α} {e : Edge α} {s : Search α}
  {c : Cycle α}

/-- The worse of two cycles; of equals, the first. -/
def worseOf (worst : Option (Cycle α)) (c : Cycle α) : Cycle α :=
  match worst with
  | none => c
  | some w => if c.total < w.total then c else w

/-- Take a negative cycle into account, once. -/
def note (f : Findings α) (c : Cycle α) : Findings α :=
  if f.traced.contains c.nodes then f
  else { f with traced := c.nodes :: f.traced, worst := some (worseOf f.worst c) }

/-- A step of the last pass without its guards. Where one of them would pass over a relaxation, as
no cycle is traced, an edge is missing or the total is not negative, this step fails. -/
def strict? (f : Findings α) (e : Edge α) : Option (Findings α) :=
  match f.search.relax? e with
  | none => some f
  | some s => do
    let nodes ← traceCycle? s.previous e.target bound
    let c ← g.cycle? nodes now
    if 0 ≤ c.total then none else some ({ f with search := s }.note c)

variable {g now bound}

theorem worse_of_neg (w : Option (Cycle α)) (hneg : ¬ 0 ≤ c.total) :
    worse w c = some (worseOf w c) := by
  unfold worse
  rw [if_neg hneg]
  cases w with
  | none => rfl
  | some w => exact (apply_ite some (c.total < w.total) c w).symm

theorem enter_of_cycle? (hc : g.cycle? c.nodes now = some c) (hneg : ¬ 0 ≤ c.total) :
    f.enter g now c.nodes = f.note c := by
  unfold enter note
  simp only [hc, worse_of_neg _ hneg, List.contains_iff_mem]

theorem step_of_relax?_eq_none (he : f.search.relax? e = none) : f.step g now bound e = f := by
  rw [step, he]

theorem step_of_traced (he : f.search.relax? e = some s) (hc : Traced g now bound (s, e.target) c)
    (hneg : ¬ 0 ≤ c.total) : f.step g now bound e = { f with search := s }.note c := by
  obtain ⟨htrace, hcycle⟩ := hc
  dsimp only at htrace
  rw [step, he]
  simp only [htrace]
  exact enter_of_cycle? hcycle hneg

theorem strict?_of_traced (he : f.search.relax? e = some s)
    (hc : Traced g now bound (s, e.target) c) (hneg : ¬ 0 ≤ c.total) :
    f.strict? g now bound e = some (f.step g now bound e) := by
  rw [step_of_traced he hc hneg]
  obtain ⟨htrace, hcycle⟩ := hc
  dsimp only at htrace
  rw [strict?, he]
  simp only [htrace, hcycle, Option.bind_eq_bind, Option.bind_some, if_neg hneg]

theorem search_step_of_relax? (he : f.search.relax? e = some s) :
    (f.step g now bound e).search = s := by
  rw [step, he]
  dsimp only
  split
  · rfl
  · rw [enter_search]

/-- **A pass can do without its guards** if after every relaxation a negative cycle is traced. -/
theorem foldlM_strict? {edges : List (Edge α)}
    (h : ∀ r ∈ f.search.residuals edges, ∃ c, Traced g now bound r c ∧ ¬ 0 ≤ c.total) :
    edges.foldlM (strict? g now bound) f = some (edges.foldl (step g now bound) f) := by
  induction edges generalizing f with
  | nil => rfl
  | cons e rest ih =>
    rw [List.foldlM_cons, List.foldl_cons]
    cases he : f.search.relax? e with
    | none =>
      rw [Search.residuals_cons_none he] at h
      rw [strict?, he, step_of_relax?_eq_none he]
      exact ih h
    | some s =>
      rw [Search.residuals_cons_some he, List.forall_mem_cons] at h
      obtain ⟨⟨c, hc, hneg⟩, hrest⟩ := h
      rw [strict?_of_traced he hc hneg]
      refine ih ?_
      rw [search_step_of_relax? he]
      exact hrest

theorem foldl_search (edges : List (Edge α)) (f : Findings α) :
    (edges.foldl (step g now bound) f).search = (f.search.pass edges).1 := by
  induction edges generalizing f with
  | nil => rfl
  | cons e rest ih =>
    rw [List.foldl_cons, ih]
    cases he : f.search.relax? e with
    | none => rw [step_of_relax?_eq_none he, Search.pass_cons_none he]
    | some s => rw [search_step_of_relax? he, Search.pass_cons_some he]

end Findings

/-! ## The last pass -/

namespace Graph

variable (g : Graph α) (source : NodeId) (nodes : KeySet NodeId) (now : Instant)

/-- The search when a number of passes are over and some edges have had their turn in the next. -/
def moment (n : ℕ) (turned : List (Edge α)) : Search α :=
  ((Search.after (g.edgesWithin nodes now) n (.start source)).pass turned).1

/-- What the last pass has found when some edges have had their turn. -/
def lastFindings (turned : List (Edge α)) : Findings α :=
  turned.foldl (Findings.step g now nodes.size)
    ⟨g.moment source nodes now (nodes.size - 1) [], [], none⟩

theorem lastFindings_search (turned : List (Edge α)) :
    (g.lastFindings source nodes now turned).search =
      g.moment source nodes now (nodes.size - 1) turned :=
  Findings.foldl_search turned _

/-- The relaxations of the last pass, also when an earlier pass has relaxed nothing. -/
theorem residuals_eq :
    g.residuals source nodes now =
      (g.moment source nodes now (nodes.size - 1) []).residuals (g.edgesWithin nodes now) := by
  cases hs : Search.passes? (g.edgesWithin nodes now) (nodes.size - 1) (.start source) with
  | none =>
    rw [residuals_eq_nil hs]
    exact (Search.residuals_after_of_passes? hs).symm
  | some s =>
    rw [residuals_of_passes? hs, (Search.passes?_eq_some_iff.mp hs).2]
    rfl

/-- **The early end of a search loses nothing**: the last pass would not have found anything. -/
theorem worstCycle?_eq_lastFindings :
    g.worstCycle? source nodes now =
      (g.lastFindings source nodes now (g.edgesWithin nodes now)).worst := by
  cases hs : Search.passes? (g.edgesWithin nodes now) (nodes.size - 1) (.start source) with
  | none =>
    have hnil : (g.moment source nodes now (nodes.size - 1) []).residuals
        (g.edgesWithin nodes now) = [] := Search.residuals_after_of_passes? hs
    rw [worstCycle?_eq_none hs, eq_comm, Option.eq_none_iff_forall_ne_some]
    intro c hc
    rcases Findings.foldl_worst_mem g now nodes.size _ hc with h | ⟨r, hr, -⟩
    · cases h
    · rw [hnil] at hr
      cases hr
  | some s =>
    rw [worstCycle?_of_passes? hs, (Search.passes?_eq_some_iff.mp hs).2]
    rfl

variable {g source nodes now}

theorem moment_eq_pass (n : ℕ) (turned : List (Edge α)) :
    g.moment source nodes now n turned = ((g.moment source nodes now n []).pass turned).1 := rfl

theorem mem_residuals_of_relax? {turned rest : List (Edge α)} {e : Edge α} {s : Search α}
    (hedges : turned ++ e :: rest = g.edgesWithin nodes now)
    (he : (g.lastFindings source nodes now turned).search.relax? e = some s) :
    (s, e.target) ∈ g.residuals source nodes now := by
  rw [lastFindings_search, moment_eq_pass] at he
  rw [residuals_eq, ← hedges, Search.residuals_append, Search.residuals_cons_some he]
  exact List.mem_append_right _ List.mem_cons_self

theorem moment_induct {I : Search α → Prop} (hI : Search.Keeps (g.edgesWithin nodes now) I)
    (hs : I (.start source)) (n : ℕ) {turned : List (Edge α)}
    (hturned : turned ⊆ g.edgesWithin nodes now) : I (g.moment source nodes now n turned) :=
  Search.pass_induct (hI.mono hturned) (Search.after_induct hI hs n)

end Graph

/-! ## Nothing is dropped -/

variable {g : Graph ℚ} {source : NodeId} {now : Instant}

/-- **A cycle of predecessors is live and negative by more than the slack**, at every moment. -/
theorem Graph.Built.exists_negative_of_predecessorCycle (hg : g.Built) {nodes : KeySet NodeId}
    (n : ℕ) {turned : List (Edge ℚ)} (hturned : turned ⊆ g.edgesWithin nodes now)
    {cycle : List NodeId}
    (hcycle : PredecessorCycle (g.moment source nodes now n turned).previous cycle) :
    ∃ c, g.cycle? cycle now = some c ∧ c.total < -Search.slack := by
  have hlinked := Graph.moment_induct hg.keeps_linked (Search.linked_start source) n hturned
  obtain ⟨-, hfalling⟩ := Graph.moment_induct hg.keeps_falling
    ⟨Search.tight_start source, Search.falling_start source⟩ n hturned
  obtain ⟨c, hc⟩ := hlinked.exists_cycle? hcycle
  exact ⟨c, hc, hfalling.total_lt hcycle hc⟩

theorem Graph.Built.worstCycle?_eq_none_iff_residuals (hg : g.Built) :
    g.worstCycle? source (g.reachable source now) now = none ↔
      g.residuals source (g.reachable source now) now = [] := by
  rw [Option.eq_none_iff_forall_ne_some, List.eq_nil_iff_forall_not_mem]
  constructor
  · intro hnone r hr
    obtain ⟨w, hw⟩ := hg.exists_worstCycle_of_residual hr
    exact hnone w hw
  · intro hnil c hc
    obtain ⟨r, hr, -⟩ := worstCycle?_mem hc
    exact hnil r hr

/-- **No cycle is found just when some pass relaxes nothing.** -/
theorem Graph.Built.worstCycle?_eq_none_iff_pass (hg : g.Built) :
    g.worstCycle? source (g.reachable source now) now = none ↔
      ∃ n < (g.reachable source now).size,
        ((g.moment source (g.reachable source now) now n []).pass
          (g.edgesWithin (g.reachable source now) now)).2 = false := by
  obtain ⟨m, hm⟩ := Nat.exists_eq_add_of_le' (hg.size_reachable_pos source now)
  rw [hg.worstCycle?_eq_none_iff_residuals, Graph.residuals_eq, hm, Nat.add_sub_cancel]
  simp only [Search.pass_snd_eq_false_iff]
  exact Search.exists_residuals_eq_nil_iff.symm

/-- **No relaxation is dropped**: each one of the last pass is traced to a negative cycle. -/
theorem Graph.Built.no_residual_dropped (hg : g.Built) (source : NodeId) (now : Instant) :
    let nodes := g.reachable source now
    let edges := g.edgesWithin nodes now
    (∀ n turned, turned <+: edges → ∀ cycle,
      PredecessorCycle (g.moment source nodes now n turned).previous cycle →
        ∃ c, g.cycle? cycle now = some c ∧ c.total < -Search.slack) ∧
    (∀ turned e rest s, turned ++ e :: rest = edges →
      (g.lastFindings source nodes now turned).search.relax? e = some s →
        ∃ c, Findings.Traced g now nodes.size (s, e.target) c ∧ c.total < -Search.slack ∧
          g.lastFindings source nodes now (turned ++ [e]) =
            { g.lastFindings source nodes now turned with search := s }.note c) ∧
    (∃ f, edges.foldlM (Findings.strict? g now nodes.size)
        (g.lastFindings source nodes now []) = some f ∧
      g.worstCycle? source nodes now = f.worst) ∧
    (g.worstCycle? source nodes now = none ↔
      ∃ n < nodes.size, ((g.moment source nodes now n []).pass edges).2 = false) := by
  intro nodes edges
  -- All clauses rest on the cycles of predecessors, which every relaxation keeps negative.
  refine ⟨fun n turned hturned cycle => ?_, fun turned e rest s hedges he => ?_, ?_,
    hg.worstCycle?_eq_none_iff_pass⟩
  · exact hg.exists_negative_of_predecessorCycle n hturned.subset
  · have hr := Graph.mem_residuals_of_relax? hedges he
    obtain ⟨c, hc, hneg⟩ := hg.exists_negative_of_residual hr
    have hstep := Findings.step_of_traced he hc (not_le.mpr (Search.neg_of_lt_slack hneg))
    refine ⟨c, hc, hneg, ?_⟩
    rw [← hstep, Graph.lastFindings, List.foldl_append]
    rfl
  · refine ⟨g.lastFindings source nodes now edges, ?_, g.worstCycle?_eq_lastFindings ..⟩
    refine Findings.foldlM_strict? fun r hr => ?_
    rw [Graph.lastFindings_search, ← Graph.residuals_eq] at hr
    obtain ⟨c, hc, hneg⟩ := hg.exists_negative_of_residual hr
    exact ⟨c, hc, not_le.mpr (Search.neg_of_lt_slack hneg)⟩

section Nested

/-- The edges but one of three cycles through a node, each of which goes further than the last. -/
def inward : List (Edge ℚ) :=
  [⟨1, 1, -1 / 4, 0, 0, 3, 100⟩, ⟨1, 2, -1, 0, 0, 3, 100⟩, ⟨2, 1, 1 / 2, 0, 0, 3, 100⟩,
    ⟨2, 3, -1, 0, 0, 3, 100⟩]

/-- The edge that closes the longest cycle. -/
def closing : Edge ℚ := ⟨3, 1, 1 / 2, 0, 0, 3, 100⟩

/-- An edge that leads to them. -/
def entering : Edge ℚ := ⟨4, 1, -1, 0, 0, 3, 100⟩

/-- The three cycles, and a node upstream of them. -/
def nested : Graph ℚ := Graph.empty.addAll (entering :: closing :: inward)

/-- In the last pass the predecessors form the second cycle first, and then the third one. -/
theorem no_residual_dropped_nested :
    nested.Built ∧
      (PredecessorCycle (nested.moment 4 (nested.reachable 4 1) 1 3 inward).previous [1, 2] ∧
        ∃ c, nested.cycle? [1, 2] 1 = some c ∧ c.total < -Search.slack) ∧
      ∃ s c,
        (nested.lastFindings 4 (nested.reachable 4 1) 1 inward).search.relax? closing = some s ∧
        Findings.Traced nested 1 (nested.reachable 4 1).size (s, 1) c ∧
        c.total < -Search.slack := by
  have hbuilt : nested.Built := Graph.Built.empty.addAll _
  have hedges : inward ++ closing :: [entering] =
      nested.edgesWithin (nested.reachable 4 1) 1 := by decide +kernel
  have hcycle : PredecessorCycle (nested.moment 4 (nested.reachable 4 1) 1 3 inward).previous
      [1, 2] := ⟨by decide, by decide, by decide +kernel⟩
  have hrelax : ((nested.lastFindings 4 (nested.reachable 4 1) 1 inward).search.relax?
      closing).isSome = true := by decide +kernel
  obtain ⟨s, hs⟩ := Option.isSome_iff_exists.mp hrelax
  obtain ⟨hnegative, htraced, -⟩ := hbuilt.no_residual_dropped 4 1
  obtain ⟨c, hc, hneg, -⟩ := htraced inward closing [entering] s hedges hs
  exact ⟨hbuilt, ⟨hcycle, hnegative 3 inward ⟨_, hedges⟩ [1, 2] hcycle⟩, s, c, hs, hc, hneg⟩

end Nested

end WebOfTrust
