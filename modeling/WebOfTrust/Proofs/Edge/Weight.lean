import Mathlib
import WebOfTrust.Edge
import WebOfTrust.Proofs.Arith.Ordered

/-!
# The weight of an edge

An edge counts by its level and by what is left of its life. No weight is negative where operations
are monotone. Over exact rationals what is left of a life falls along a straight line, from one at
its beginning to zero at its end, so an edge has no weight exactly when it has expired.

* `Edge.timestamp_lt_expiration`, `Edge.abs_risk_le`: edges with nothing wrong;
* `Edge.levelWeight_nonneg`, `Edge.recency_nonneg`, `Edge.weight_nonneg`: monotone arithmetic;
* `Edge.levelWeight_le`, `Edge.levelWeight_lt`: a higher level counts more;
* `Edge.freshness`: what is left of a life at all times, those between instants too;
  **`Edge.recency_eq_freshness`**, `Edge.continuous_freshness`;
* `Edge.recency_pos_iff`, `Edge.weight_pos`, `Edge.recency_of_expired`: edges with a weight.
-/

namespace WebOfTrust.Edge

/-! ## Edges with nothing wrong -/

theorem timestamp_lt_expiration {α : Type} [Arith α] {e : Edge α} (h : e.fault? = none) :
    e.timestamp < e.expiration := by
  unfold fault? at h
  split_ifs at h with _ _ hlife
  exact UInt64.not_le.mp hlife

theorem fault?_level_iff {α : Type} [Arith α] {e : Edge α} (h : e.fault? = none) {level : UInt8} :
    { e with level := level }.fault? = none ↔ level.toNat ≤ maxLevel := by
  unfold fault? at h ⊢
  split_ifs at h with hrisk hlevel hlife
  rw [if_neg (not_not.mpr hrisk), if_neg hlife]
  split_ifs with hmax
  · exact iff_of_false not_false (not_le.mpr hmax)
  · exact iff_of_true rfl (not_lt.mp hmax)

theorem abs_risk_le {e : Edge ℚ} (h : e.fault? = none) : |e.risk| ≤ 1 := by
  unfold fault? at h
  split_ifs at h with hrisk
  exact abs_le.mpr hrisk.2

/-! ## Monotone arithmetic -/

section Monotone

variable {α : Type} [Arith α] [MonotoneArith α] (e : Edge α)

theorem levelWeight_nonneg : 0 ≤ e.levelWeight := by
  have hone : (0 : α) ≤ 1 := Std.le_of_lt MonotoneArith.one_pos
  have htop : (0 : α) < (maxLevel : α) + 1 :=
    Arith.add_pos_of_nonneg (MonotoneArith.natCast_pos _ (by decide)) hone
  exact Arith.div_nonneg (Arith.add_nonneg (MonotoneArith.natCast_nonneg _) hone) htop

theorem recency_nonneg (now : Instant) : 0 ≤ e.recency now := by
  unfold recency
  split_ifs
  · exact Std.le_of_lt MonotoneArith.one_pos
  · exact Std.le_refl 0
  · exact Arith.clampUnit_nonneg _

theorem weight_nonneg (now : Instant) : 0 ≤ e.levelWeight * e.recency now :=
  Arith.mul_nonneg e.levelWeight_nonneg (e.recency_nonneg now)

end Monotone

/-! ## Exact arithmetic -/

variable {e : Edge ℚ} {now : Instant}

theorem levelWeight_pos (e : Edge ℚ) : 0 < e.levelWeight := by
  show (0 : ℚ) < (((min e.level.toNat maxLevel : ℕ) : ℚ) + 1) / ((maxLevel : ℚ) + 1)
  positivity

theorem levelWeight_le {level : UInt8} (h : e.level ≤ level) :
    e.levelWeight ≤ { e with level := level }.levelWeight := by
  have hle : min e.level.toNat maxLevel ≤ min level.toNat maxLevel :=
    min_le_min_right _ (UInt8.le_iff_toNat_le.mp h)
  show (((min e.level.toNat maxLevel : ℕ) : ℚ) + 1) / ((maxLevel : ℚ) + 1) ≤
    (((min level.toNat maxLevel : ℕ) : ℚ) + 1) / ((maxLevel : ℚ) + 1)
  gcongr

theorem levelWeight_lt {level : UInt8} (h : e.level < level) (hmax : level.toNat ≤ maxLevel) :
    e.levelWeight < { e with level := level }.levelWeight := by
  have hlt : e.level.toNat < level.toNat := UInt8.lt_iff_toNat_lt.mp h
  have hmin : min e.level.toNat maxLevel < min level.toNat maxLevel := by omega
  show (((min e.level.toNat maxLevel : ℕ) : ℚ) + 1) / ((maxLevel : ℚ) + 1) <
    (((min level.toNat maxLevel : ℕ) : ℚ) + 1) / ((maxLevel : ℚ) + 1)
  gcongr

/-- What is left of the life of an edge at some time, on a straight line from its beginning to its
end. -/
def freshness (e : Edge ℚ) (t : ℚ) : ℚ :=
  Arith.clampUnit ((e.expiration.toNat - t) / (e.expiration.toNat - e.timestamp.toNat))

theorem freshness_nonneg (e : Edge ℚ) (t : ℚ) : 0 ≤ e.freshness t := Arith.clampUnit_nonneg _

theorem continuous_freshness (e : Edge ℚ) : Continuous e.freshness := by
  unfold freshness
  simp only [Arith.clampUnit_eq]
  fun_prop

theorem lifetime_pos (h : e.timestamp < e.expiration) :
    (0 : ℚ) < e.expiration.toNat - e.timestamp.toNat :=
  sub_pos.mpr (Nat.cast_lt.mpr (UInt64.lt_iff_toNat_lt.mp h))

theorem toNat_sub_eq {s t : Instant} (h : s ≤ t) :
    ((t - s).toNat : ℚ) = t.toNat - s.toNat := by
  rw [UInt64.toNat_sub_of_le _ _ h, Nat.cast_sub (UInt64.le_iff_toNat_le.mp h)]

/-- **What is left of a life at an instant lies on the line.** -/
theorem recency_eq_freshness (h : e.timestamp < e.expiration) (now : Instant) :
    e.recency now = e.freshness now.toNat := by
  have hlife := lifetime_pos h
  unfold recency freshness
  split_ifs with hearly hlate
  · have hle : (now.toNat : ℚ) ≤ e.timestamp.toNat :=
      Nat.cast_le.mpr (UInt64.le_iff_toNat_le.mp hearly)
    have hfull : 1 ≤ ((e.expiration.toNat : ℚ) - now.toNat) /
        (e.expiration.toNat - e.timestamp.toNat) := (one_le_div hlife).mpr (by linarith)
    rw [Arith.clampUnit_eq, min_eq_right hfull]
    exact (max_eq_right zero_le_one).symm
  · have hle : (e.expiration.toNat : ℚ) ≤ now.toNat :=
      Nat.cast_le.mpr (UInt64.le_iff_toNat_le.mp hlate)
    have hover : ((e.expiration.toNat : ℚ) - now.toNat) /
        (e.expiration.toNat - e.timestamp.toNat) ≤ 0 :=
      div_nonpos_of_nonpos_of_nonneg (sub_nonpos.mpr hle) hlife.le
    rw [Arith.clampUnit_eq]
    exact (max_eq_left ((min_le_left _ _).trans hover)).symm
  · rw [toNat_sub_eq (UInt64.le_of_lt h), toNat_sub_eq (UInt64.le_of_lt (UInt64.not_le.mp hlate))]

theorem freshness_pos_iff (h : e.timestamp < e.expiration) (t : ℚ) :
    0 < e.freshness t ↔ t < e.expiration.toNat := by
  rw [freshness, Arith.clampUnit_eq, lt_max_iff, lt_min_iff,
    div_pos_iff_of_pos_right (lifetime_pos h), sub_pos]
  simp

/-- **An edge counts exactly as long as it has not expired.** -/
theorem recency_pos_iff (h : e.timestamp < e.expiration) :
    0 < e.recency now ↔ e.isExpired now = false := by
  rw [recency_eq_freshness h, freshness_pos_iff h, Nat.cast_lt, isExpired, decide_eq_false_iff_not,
    UInt64.not_le, UInt64.lt_iff_toNat_lt]

theorem weight_pos (h : e.timestamp < e.expiration) (hlive : e.isExpired now = false) :
    0 < e.levelWeight * e.recency now :=
  mul_pos e.levelWeight_pos ((recency_pos_iff h).mpr hlive)

theorem recency_of_expired (h : e.timestamp < e.expiration) (hexpired : e.isExpired now = true) :
    e.recency now = 0 := by
  have hnone : ¬ 0 < e.recency now := by
    rw [recency_pos_iff h, hexpired]
    exact Bool.noConfusion
  exact le_antisymm (not_lt.mp hnone) (e.recency_nonneg now)

end WebOfTrust.Edge
