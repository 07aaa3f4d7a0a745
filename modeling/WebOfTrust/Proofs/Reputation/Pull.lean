import Mathlib
import WebOfTrust.Proofs.Reputation.Monotone

/-!
# Edges pull scores

A live edge pulls the score of its target towards a value of its own, one half plus half its risk.
Where a change gives the edge of a pair more weight at the same risk, the sums over the live edges
gain that weight and nothing else. So the new score is a mean of the old one and of the value that
the edge pulls to: it has moved towards that value, and not past it.

* `Graph.incomingBeside`: the live edges into the target of a pair from other sources;
  `Graph.Built.incoming_perm_beside`, `Graph.Built.incomingBeside_congr`: the pair set apart;
* `Tally.Gains`: more weight on one risk; **`Graph.Built.tally_gains`**: a change of a single pair;
* `Graph.Built.score_of_gains`: the new score is a mean; `mem_uIcc_of_mean`: means lie between;
* `Graph.Pulled`, `Graph.Moved`: what an edge does to a score; `Graph.Built.pulled_of_gains`: more
  weight does it;
* `Graph.Built.pulled_of_put`: so does an edge in the place of a lighter one;
* **`Graph.Built.score_pulled`**: fresh edges and edges of a higher level pull the score.
-/

namespace WebOfTrust

/-! ## One pair apart -/

section Beside

variable {α : Type} {g g' : Graph α} {now : Instant}

/-- The live edges into the target of a pair from other sources than its own. -/
def Graph.incomingBeside (g : Graph α) (a : Arc) (now : Instant) : List (Edge α) :=
  (g.incoming a.target now).filter fun e => !decide (e.source = a.source)

theorem Graph.lookup_put (g : Graph α) (e : Edge α) (a : Arc) (now : Instant) :
    (g.put e).lookup a now =
      if a = e.arc then (if e.isExpired now then none else some e) else g.lookup a now := by
  rw [lookup_eq_filter, lookup_eq_filter, unrevoked?_put]
  split_ifs with ha hexpired
  · simp [Option.filter, hexpired]
  · simp [Option.filter, hexpired]
  · rfl

variable [Arith α]

theorem Graph.Built.filter_incoming_eq (hg : g.Built) (a : Arc) (now : Instant) :
    ((g.incoming a.target now).filter fun e => decide (e.source = a.source)) =
      (g.lookup a now).toList := by
  apply eq_of_pairwise_rank (f := fun e => e.source.toNat)
  · exact (hg.pairwise_incoming a.target now).filter _
  · cases g.lookup a now <;> simp
  · intro e
    rw [List.mem_filter, hg.mem_incoming_iff, decide_eq_true_eq, Option.mem_toList]
    constructor
    · rintro ⟨⟨htarget, he⟩, hsource⟩
      have ha : e.arc = a := by rw [Edge.arc, htarget, hsource]
      exact ha ▸ he
    · intro he
      obtain rfl := hg.arc_of_lookup he
      exact ⟨⟨rfl, he⟩, rfl⟩

theorem Graph.Built.incoming_perm_beside (hg : g.Built) (a : Arc) (now : Instant) :
    (g.incoming a.target now).Perm ((g.lookup a now).toList ++ g.incomingBeside a now) := by
  rw [← hg.filter_incoming_eq]
  exact (List.filter_append_perm _ _).symm

theorem Graph.Built.incomingBeside_congr (hg : g.Built) (hg' : g'.Built) {a : Arc}
    (h : ∀ b, b ≠ a → g.lookup b now = g'.lookup b now) :
    g.incomingBeside a now = g'.incomingBeside a now := by
  apply eq_of_pairwise_rank (f := fun e => e.source.toNat)
  · exact (hg.pairwise_incoming a.target now).filter _
  · exact (hg'.pairwise_incoming a.target now).filter _
  · intro e
    unfold incomingBeside
    rw [List.mem_filter, List.mem_filter, hg.mem_incoming_iff, hg'.mem_incoming_iff]
    by_cases hsource : e.source = a.source
    · simp [hsource]
    · have hne : e.arc ≠ a := fun he => hsource (congrArg Arc.source he)
      rw [h e.arc hne]

end Beside

/-! ## More weight on one risk -/

/-- The second tally has some weight more, all of it on one risk. -/
structure Tally.Gains (t t' : Tally ℚ) (weight risk : ℚ) : Prop where
  weight_eq : t'.weight = t.weight + weight
  weightedRisk_eq : t'.weightedRisk = t.weightedRisk + weight * risk

section Exact

variable {g g' : Graph ℚ} {settings : ReputationSettings ℚ} {a : Arc} {v : NodeId} {now : Instant}
  {e e' : Edge ℚ} {weight risk : ℚ}

/-- What the live edge of a pair weighs; nothing if there is none. -/
def Graph.weightOf (g : Graph ℚ) (a : Arc) (now : Instant) : ℚ :=
  ((g.lookup a now).map fun e => e.levelWeight * e.recency now).getD 0

theorem Graph.Built.tally_beside (hg : g.Built) (a : Arc) (now : Instant)
    (hrisk : ∀ e, g.lookup a now = some e → e.risk = risk) :
    (g.tally a.target now).weight = g.weightOf a now +
        ((g.incomingBeside a now).map fun e => e.levelWeight * e.recency now).sum ∧
      (g.tally a.target now).weightedRisk = g.weightOf a now * risk +
        ((g.incomingBeside a now).map fun e => e.levelWeight * e.recency now * e.risk).sum := by
  have hperm := hg.incoming_perm_beside a now
  rw [tally, Tally.foldl_add]
  dsimp only
  rw [(hperm.map _).sum_eq, (hperm.map _).sum_eq, List.map_append, List.map_append,
    List.sum_append, List.sum_append, weightOf]
  cases he : g.lookup a now with
  | none => simp
  | some e => simp [hrisk e he]

/-- **A change of the edge of a single pair at the same risk** adds or takes weight on that risk. -/
theorem Graph.Built.tally_gains (hg : g.Built) (hg' : g'.Built)
    (hothers : ∀ b, b ≠ a → g.lookup b now = g'.lookup b now)
    (hrisk : ∀ e, g.lookup a now = some e → e.risk = risk)
    (hrisk' : ∀ e, g'.lookup a now = some e → e.risk = risk) :
    (g.tally a.target now).Gains (g'.tally a.target now)
      (g'.weightOf a now - g.weightOf a now) risk := by
  obtain ⟨hweight, hrisks⟩ := hg.tally_beside a now hrisk
  obtain ⟨hweight', hrisks'⟩ := hg'.tally_beside a now hrisk'
  rw [← hg.incomingBeside_congr hg' hothers] at hweight' hrisks'
  constructor
  · rw [hweight, hweight']
    ring
  · rw [hrisks, hrisks']
    ring

/-! ## Scores -/

theorem mem_uIcc_of_mean {p q x y z : ℚ} (hp : 0 < p) (hq : 0 ≤ q)
    (h : (p + q) * z = p * x + q * y) : z ∈ Set.uIcc x y := by
  have hpos : 0 < p + q := by linarith
  rw [← segment_eq_uIcc, mem_segment_iff_div]
  refine ⟨p, q, hp.le, hq, hpos, ?_⟩
  rw [smul_eq_mul, smul_eq_mul]
  field_simp
  linarith

/-- **More weight on a risk makes the new score a mean** of the old one and what it stands for. -/
theorem Graph.Built.score_of_gains (hg : g.Built) (hg' : g'.Built)
    (hprior : 0 < settings.priorWeight)
    (h : (g.tally v now).Gains (g'.tally v now) weight risk) :
    (settings.priorWeight + (g.tally v now).weight + weight) *
        (g'.reputation settings v now).score =
      (settings.priorWeight + (g.tally v now).weight) * (g.reputation settings v now).score +
        weight * ((1 + risk) / 2) := by
  have hpos := g.priorWeight_add_pos v now hprior
  have hpos' := g'.priorWeight_add_pos v now hprior
  rw [hg.score_eq_tally hprior, hg'.score_eq_tally hprior]
  rw [h.weight_eq, ← add_assoc] at hpos' ⊢
  rw [h.weightedRisk_eq]
  field_simp
  ring

/-- The score of a node is pulled to a risk: the score in the second graph lies between that in the
first one and one half plus half the risk. -/
structure Graph.Pulled (g g' : Graph ℚ) (settings : ReputationSettings ℚ) (v : NodeId)
    (now : Instant) (risk : ℚ) : Prop where
  towards : (g'.reputation settings v now).score ∈
    Set.uIcc (g.reputation settings v now).score ((1 + risk) / 2)
  /-- Full trust never lowers the score. -/
  trust : risk = 1 → (g.reputation settings v now).score ≤ (g'.reputation settings v now).score
  /-- Full distrust never raises it. -/
  distrust : risk = -1 →
    (g'.reputation settings v now).score ≤ (g.reputation settings v now).score

/-- The score of a node is another one in the second graph, unless it was where the risk pulls it
to. -/
def Graph.Moved (g g' : Graph ℚ) (settings : ReputationSettings ℚ) (v : NodeId) (now : Instant)
    (risk : ℚ) : Prop :=
  (g.reputation settings v now).score ≠ (1 + risk) / 2 →
    (g'.reputation settings v now).score ≠ (g.reputation settings v now).score

theorem Graph.Built.pulled_of_towards (hg : g.Built) (hprior : 0 < settings.priorWeight)
    (h : (g'.reputation settings v now).score ∈
      Set.uIcc (g.reputation settings v now).score ((1 + risk) / 2)) :
    g.Pulled g' settings v now risk := by
  obtain ⟨hlow, hhigh⟩ := (hg.reputed hprior v now).mem_unit
  refine ⟨h, ?_, ?_⟩
  · rintro rfl
    rw [show ((1 : ℚ) + 1) / 2 = 1 by norm_num, Set.uIcc_of_le hhigh.le] at h
    exact h.1
  · rintro rfl
    rw [show ((1 : ℚ) + -1) / 2 = 0 by norm_num, Set.uIcc_of_ge hlow.le] at h
    exact h.2

/-- **Weight that is gained on a risk pulls the score**, and moves it. -/
theorem Graph.Built.pulled_of_gains (hg : g.Built) (hg' : g'.Built)
    (hprior : 0 < settings.priorWeight) (hweight : 0 ≤ weight)
    (h : (g.tally v now).Gains (g'.tally v now) weight risk) :
    g.Pulled g' settings v now risk ∧ (0 < weight → g.Moved g' settings v now risk) := by
  have hpos := g.priorWeight_add_pos v now hprior
  have hmean := hg.score_of_gains hg' hprior h
  refine ⟨hg.pulled_of_towards hprior (mem_uIcc_of_mean hpos hweight hmean), fun hlt hne heq => ?_⟩
  rw [heq, add_mul, add_right_inj] at hmean
  exact hne (mul_left_cancel₀ hlt.ne' hmean)

/-! ## Fresh edges and higher levels -/

theorem Graph.weightOf_of_lookup (he : g.lookup a now = some e) :
    g.weightOf a now = e.levelWeight * e.recency now := by
  rw [weightOf, he]
  rfl

theorem Graph.weightOf_of_lookup_eq_none (h : g.lookup a now = none) : g.weightOf a now = 0 := by
  rw [weightOf, h]
  rfl

/-- **An edge pulls the score** when it is put in the place of a lighter one, or of none. -/
theorem Graph.Built.pulled_of_put (hg : g.Built) (hprior : 0 < settings.priorWeight)
    (hvalid : e.fault? = none) (hlive : e.isExpired now = false)
    (hrisk : ∀ old, g.lookup e.arc now = some old → old.risk = e.risk)
    (hweight : g.weightOf e.arc now ≤ e.levelWeight * e.recency now) :
    g.Pulled (g.add e).2 settings e.target now e.risk ∧
      (g.weightOf e.arc now < e.levelWeight * e.recency now →
        g.Moved (g.add e).2 settings e.target now e.risk) := by
  have hput : (g.add e).2 = g.put e := by
    rw [add_snd, hvalid]
    rfl
  have hg' : (g.put e).Built := hput ▸ hg.add e
  have hown : (g.put e).lookup e.arc now = some e := by
    rw [lookup_put, if_pos rfl, hlive]
    rfl
  have hothers : ∀ b, b ≠ e.arc → g.lookup b now = (g.put e).lookup b now := by
    intro b hb
    rw [lookup_put, if_neg hb]
  have hrisk' : ∀ new, (g.put e).lookup e.arc now = some new → new.risk = e.risk := by
    intro new hnew
    rw [hown] at hnew
    cases hnew
    rfl
  have hgains := hg.tally_gains hg' hothers hrisk hrisk'
  rw [weightOf_of_lookup hown] at hgains
  obtain ⟨hpulled, hmoved⟩ := hg.pulled_of_gains hg' hprior (sub_nonneg.mpr hweight) hgains
  rw [hput]
  exact ⟨hpulled, fun hlt => hmoved (sub_pos.mpr hlt)⟩

theorem Graph.Built.pulled_of_fresh (hg : g.Built) (hprior : 0 < settings.priorWeight)
    (hvalid : e.fault? = none) (hlive : e.isExpired now = false)
    (hnone : g.lookup e.arc now = none) : g.Pulled (g.add e).2 settings e.target now e.risk ∧
      g.Moved (g.add e).2 settings e.target now e.risk := by
  have hweight : g.weightOf e.arc now < e.levelWeight * e.recency now := by
    rw [weightOf_of_lookup_eq_none hnone]
    exact Edge.weight_pos (Edge.timestamp_lt_expiration hvalid) hlive
  have hrisk : ∀ old, g.lookup e.arc now = some old → old.risk = e.risk := by
    simp [hnone]
  obtain ⟨hpulled, hmoved⟩ := hg.pulled_of_put hprior hvalid hlive hrisk hweight.le
  exact ⟨hpulled, hmoved hweight⟩

theorem Graph.Built.pulled_of_level (hg : g.Built) (hprior : 0 < settings.priorWeight)
    (he : g.lookup e.arc now = some e) {level : UInt8} (hle : e.level ≤ level) :
    g.Pulled (g.add { e with level := level }).2 settings e.target now e.risk ∧
      (e.level < level → level.toNat ≤ Edge.maxLevel →
        g.Moved (g.add { e with level := level }).2 settings e.target now e.risk) := by
  have hvalid := hg.fault?_of_lookup he
  have hlive := isExpired_of_lookup he
  have hlife := Edge.timestamp_lt_expiration hvalid
  have hrecency : 0 < e.recency now := (Edge.recency_pos_iff hlife).mpr hlive
  have hlevel : { e with level := level }.fault? = none ↔ level.toNat ≤ Edge.maxLevel :=
    Edge.fault?_level_iff hvalid
  by_cases hmax : level.toNat ≤ Edge.maxLevel
  · have hrisk : ∀ old, g.lookup e.arc now = some old → old.risk = e.risk := by
      simp [he]
    have hweight : g.weightOf e.arc now ≤
        { e with level := level }.levelWeight * e.recency now := by
      rw [weightOf_of_lookup he]
      exact mul_le_mul_of_nonneg_right (Edge.levelWeight_le hle) hrecency.le
    obtain ⟨hpulled, hmoved⟩ := hg.pulled_of_put (e := { e with level := level }) hprior
      (hlevel.mpr hmax) hlive hrisk hweight
    refine ⟨hpulled, fun hlt _ => hmoved ?_⟩
    show g.weightOf e.arc now < { e with level := level }.levelWeight * e.recency now
    rw [weightOf_of_lookup he]
    exact mul_lt_mul_of_pos_right (Edge.levelWeight_lt hlt hmax) hrecency
  · -- An edge above the highest level is refused, and the score stays.
    have hrefused : (g.add { e with level := level }).2 = g := by
      rw [add_snd, if_pos]
      exact Option.isSome_iff_ne_none.mpr (mt hlevel.mp hmax)
    rw [hrefused]
    exact ⟨hg.pulled_of_towards hprior Set.left_mem_uIcc, fun _ h => absurd h hmax⟩

/-- **Edges pull scores towards themselves**, and not past what they stand for. -/
theorem Graph.Built.score_pulled (hg : g.Built) (hprior : 0 < settings.priorWeight)
    (now : Instant) :
    (∀ e, e.fault? = none → e.isExpired now = false → g.lookup e.arc now = none →
      g.Pulled (g.add e).2 settings e.target now e.risk ∧
        g.Moved (g.add e).2 settings e.target now e.risk) ∧
    ∀ e level, g.lookup e.arc now = some e → e.level ≤ level →
      g.Pulled (g.add { e with level := level }).2 settings e.target now e.risk ∧
        (e.level < level → level.toNat ≤ Edge.maxLevel →
          g.Moved (g.add { e with level := level }).2 settings e.target now e.risk) := by
  constructor
  · intro e hvalid hlive hnone
    exact hg.pulled_of_fresh hprior hvalid hlive hnone
  · intro e level he hle
    exact hg.pulled_of_level hprior he hle

end Exact

section Divided

/-- Trust of one half, on the pair of the divided node that was revoked. -/
def renewed : Edge ℚ := ⟨5, 1, 1 / 2, 0, 0, 3, 100⟩

/-- The distrust of the divided node that lasts. -/
def lasting : Edge ℚ := ⟨3, 1, -1, 0, 0, 1, 200⟩

/-- From 2/7, trust of one half pulls up towards 3/4, and distrust pulls down on a higher level. -/
theorem score_pulled_divided :
    let g : Graph ℚ := Graph.divided ℚ
    let settings : ReputationSettings ℚ := Config.default.reputation
    g.Built ∧ 0 < settings.priorWeight ∧ (g.reputation settings 1 50).score = 2 / 7 ∧
    (renewed.fault? = none ∧ renewed.isExpired 50 = false ∧ g.lookup renewed.arc 50 = none ∧
      (g.record? renewed.arc).isSome = true ∧
      2 / 7 < ((g.add renewed).2.reputation settings 1 50).score ∧
      ((g.add renewed).2.reputation settings 1 50).score ≤ 3 / 4) ∧
    g.lookup lasting.arc 50 = some lasting ∧ lasting.level < 3 ∧
      ((g.add { lasting with level := 3 }).2.reputation settings 1 50).score < 2 / 7 := by
  intro g settings
  have hbuilt : g.Built := (Graph.Built.empty.addAll _).revoke _ _
  have hprior : 0 < settings.priorWeight := by decide +kernel
  have hscore : (g.reputation settings 1 50).score = 2 / 7 := by decide +kernel
  have hvalid : renewed.fault? = none := by decide +kernel
  have hlive : renewed.isExpired 50 = false := by decide +kernel
  have hnone : g.lookup renewed.arc 50 = none := by decide +kernel
  have hsome : (g.record? renewed.arc).isSome = true := by decide +kernel
  have hlookup : g.lookup lasting.arc 50 = some lasting := by decide +kernel
  have hlevel : lasting.level < 3 := by decide
  obtain ⟨hfresh, hraised⟩ := hbuilt.score_pulled hprior 50
  obtain ⟨hpulled, hmoved⟩ := hfresh renewed hvalid hlive hnone
  obtain ⟨hlower, hlowered⟩ := hraised lasting 3 hlookup (by decide)
  have hbetween : ((g.add renewed).2.reputation settings 1 50).score ∈
      Set.uIcc (g.reputation settings 1 50).score ((1 + 1 / 2) / 2) := hpulled.towards
  have hbelow : ((g.add { lasting with level := 3 }).2.reputation settings 1 50).score ≤
      (g.reputation settings 1 50).score := hlower.distrust rfl
  have hother : (g.reputation settings 1 50).score ≠ (1 + 1 / 2) / 2 →
      ((g.add renewed).2.reputation settings 1 50).score ≠
        (g.reputation settings 1 50).score := hmoved
  have hother' : (g.reputation settings 1 50).score ≠ (1 + -1) / 2 →
      ((g.add { lasting with level := 3 }).2.reputation settings 1 50).score ≠
        (g.reputation settings 1 50).score := hlowered hlevel (by decide)
  rw [hscore] at hbetween hbelow hother hother'
  rw [Set.uIcc_of_le (by norm_num)] at hbetween
  obtain ⟨hlow, hhigh⟩ := hbetween
  refine ⟨hbuilt, hprior, hscore, ⟨hvalid, hlive, hnone, hsome, ?_, ?_⟩, hlookup, hlevel, ?_⟩
  · exact lt_of_le_of_ne hlow (hother (by norm_num)).symm
  · linarith
  · exact lt_of_le_of_ne hbelow (hother' (by norm_num))

end Divided

end WebOfTrust
