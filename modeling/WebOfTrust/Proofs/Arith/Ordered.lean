import Mathlib
import WebOfTrust.Arith

/-!
# Ordered arithmetic

What some results ask of a carrier of arithmetic, short of exactness.

* `OrderedArith`: carriers in a linear order, where a value less itself is zero;
* `MonotoneArith`: carriers in a linear order, where the operations are monotone;
* `Arith.magnitude_zero`, `Arith.pos_or_neg_of_lt_magnitude`: magnitudes in an ordered carrier;
* `Arith.largest`: the largest of some values, or zero; `Arith.isGreatest_largest`;
* `Arith.clampUnit_mono`, `Arith.mul_nonneg`, `Arith.add_pos_of_nonneg`: monotone operations;
* `Arith.half_eq`, `Arith.magnitude_eq_abs`, `Arith.clampUnit_eq`, `Arith.atMostOne_eq`: what is
  built on exact operations; `Arith.abs_mean_sub_le`: means of values that differ by little.
-/

namespace WebOfTrust

/-- A carrier in a linear order, where a value less itself is zero. Its operations may round. -/
class OrderedArith (α : Type) [Arith α] : Prop
    extends Std.IsLinearOrder α, Std.LawfulOrderLT α where
  sub_self : ∀ x : α, x - x = 0

instance : OrderedArith ℚ where
  le_refl _ := Rat.le_refl
  le_trans _ _ _ := Rat.le_trans
  le_antisymm _ _ := Rat.le_antisymm
  le_total _ _ := Rat.le_total
  lt_iff _ _ := lt_iff_le_not_ge
  sub_self := sub_self

/-- A carrier in a linear order whose operations are monotone, and exact on zero. They may round. -/
class MonotoneArith (α : Type) [Arith α] : Prop
    extends Std.IsLinearOrder α, Std.LawfulOrderLT α where
  one_pos : (0 : α) < 1
  natCast_nonneg : ∀ n : ℕ, (0 : α) ≤ (n : α)
  natCast_pos : ∀ n : ℕ, 0 < n → (0 : α) < (n : α)
  add_zero : ∀ x : α, x + 0 = x
  mul_zero : ∀ x : α, x * 0 = 0
  zero_div : ∀ x : α, 0 < x → 0 / x = 0
  add_le_add : ∀ {a b c d : α}, a ≤ b → c ≤ d → a + c ≤ b + d
  mul_le_mul_left : ∀ {w a b : α}, 0 ≤ w → a ≤ b → w * a ≤ w * b
  div_le_div_right : ∀ {d a b : α}, 0 < d → a ≤ b → a / d ≤ b / d

instance : MonotoneArith ℚ where
  one_pos := by norm_num
  natCast_nonneg n := Nat.cast_nonneg n
  natCast_pos n hn := Nat.cast_pos.mpr hn
  add_zero := Rat.add_zero
  mul_zero := Rat.mul_zero
  zero_div x _ := zero_div x
  add_le_add := add_le_add
  mul_le_mul_left hw h := mul_le_mul_of_nonneg_left h hw
  div_le_div_right hd h := div_le_div_of_nonneg_right h hd.le

namespace Arith

variable {α : Type} [Arith α]

/-- The largest of some values, or zero if none of them is above it. -/
def largest (l : List α) : α := l.foldl (fun largest y => if largest < y then y else largest) 0

theorem largest_concat (l : List α) (y : α) :
    largest (l ++ [y]) = if largest l < y then y else largest l := List.foldl_append ..

variable [OrderedArith α]

theorem magnitude_zero : magnitude (0 : α) = 0 := if_neg (Std.lt_irrefl)

theorem pos_or_neg_of_lt_magnitude {x t : α} (ht : 0 < t) (h : t < magnitude x) :
    x < 0 ∧ ¬ 0 < x ∨ 0 < x ∧ ¬ x < 0 := by
  unfold magnitude at h
  split_ifs at h with hx
  · exact .inl ⟨hx, by grind⟩
  · exact .inr ⟨by grind, hx⟩

theorem isGreatest_unique {s : Set α} {r r' : α} (h : IsGreatest s r) (h' : IsGreatest s r') :
    r = r' :=
  Std.le_antisymm (h'.2 h.1) (h.2 h'.1)

theorem isGreatest_largest (l : List α) : IsGreatest (insert 0 {y | y ∈ l}) (largest l) := by
  induction l using List.reverseRecOn with
  | nil =>
    refine ⟨.inl rfl, ?_⟩
    rintro y (rfl | hy)
    · exact Std.le_refl _
    · cases hy
  | append_singleton l z ih =>
    obtain ⟨hmem, hmax⟩ := ih
    have hinsert : insert 0 {y | y ∈ l ++ [z]} = insert z (insert (0 : α) {y | y ∈ l}) := by
      ext y
      simp only [Set.mem_insert_iff, Set.mem_ofPred_eq, List.mem_append, List.mem_singleton]
      tauto
    rw [largest_concat, hinsert]
    split_ifs with hz
    · refine ⟨.inl rfl, ?_⟩
      rintro y (rfl | hy)
      · exact Std.le_refl _
      · exact Std.le_of_lt (Std.lt_of_le_of_lt (hmax hy) hz)
    · refine ⟨.inr hmem, ?_⟩
      rintro y (rfl | hy)
      · exact Std.not_lt.mp hz
      · exact hmax hy

theorem largest_nonneg (l : List α) : 0 ≤ largest l := (isGreatest_largest l).2 (.inl rfl)

theorem le_largest {l : List α} {y : α} (hy : y ∈ l) : y ≤ largest l :=
  (isGreatest_largest l).2 (.inr hy)

theorem largest_le {l : List α} {r : α} (hr : 0 ≤ r) (h : ∀ y ∈ l, y ≤ r) : largest l ≤ r := by
  rcases (isGreatest_largest l).1 with hzero | hmem
  · rw [hzero]
    exact hr
  · exact h _ hmem

theorem largest_congr {l l' : List α} (h : ∀ y ∈ l, y = 0 ∨ y ∈ l') (h' : ∀ y ∈ l', y = 0 ∨ y ∈ l) :
    largest l = largest l' := by
  have hset : insert 0 {y | y ∈ l} = insert (0 : α) {y | y ∈ l'} := by
    ext y
    constructor
    · rintro (rfl | hy)
      exacts [.inl rfl, h y hy]
    · rintro (rfl | hy)
      exacts [.inl rfl, h' y hy]
  exact isGreatest_unique (isGreatest_largest l) (hset ▸ isGreatest_largest l')

/-! ## Monotone operations -/

section Monotone

variable {α : Type} [Arith α] [MonotoneArith α] {x y : α}

theorem clampUnit_nonneg (x : α) : 0 ≤ clampUnit x := by
  have hone : (0 : α) < 1 := MonotoneArith.one_pos
  unfold clampUnit
  split_ifs <;> grind

theorem clampUnit_mono (h : x ≤ y) : clampUnit x ≤ clampUnit y := by
  have hone : (0 : α) < 1 := MonotoneArith.one_pos
  unfold clampUnit
  split_ifs <;> grind

theorem add_nonneg (hx : 0 ≤ x) (hy : 0 ≤ y) : 0 ≤ x + y := by
  rw [← MonotoneArith.add_zero (0 : α)]
  exact MonotoneArith.add_le_add hx hy

theorem mul_nonneg (hx : 0 ≤ x) (hy : 0 ≤ y) : 0 ≤ x * y := by
  rw [← MonotoneArith.mul_zero x]
  exact MonotoneArith.mul_le_mul_left hx hy

theorem div_nonneg (hx : 0 ≤ x) (hy : 0 < y) : 0 ≤ x / y := by
  rw [← MonotoneArith.zero_div y hy]
  exact MonotoneArith.div_le_div_right hy hx

theorem add_pos_of_nonneg (hx : 0 < x) (hy : 0 ≤ y) : 0 < x + y := by
  have hle : x + 0 ≤ x + y := MonotoneArith.add_le_add (Std.le_refl x) hy
  rw [MonotoneArith.add_zero] at hle
  exact Std.lt_of_lt_of_le hx hle

end Monotone

/-! ## Exact rationals -/

theorem half_eq : (half : ℚ) = 1 / 2 := by
  norm_num [half, ratio]

theorem magnitude_eq_abs (x : ℚ) : magnitude x = |x| := by
  unfold magnitude
  split_ifs with h
  · exact (abs_of_neg h).symm
  · exact (abs_of_nonneg (not_lt.mp h)).symm

theorem atMostOne_eq (x : ℚ) : atMostOne x = min x 1 := by
  unfold atMostOne
  split_ifs with h
  · exact (min_eq_left h.le).symm
  · exact (min_eq_right (not_lt.mp h)).symm

theorem clampUnit_eq (x : ℚ) : clampUnit x = max 0 (min x 1) := by
  unfold clampUnit
  split_ifs with h h'
  · exact (max_eq_left ((min_le_left x 1).trans h.le)).symm
  · rw [min_eq_right h'.le]
    exact (max_eq_right zero_le_one).symm
  · rw [min_eq_left (not_lt.mp h'), max_eq_right (not_lt.mp h)]

theorem clampUnit_of_mem {x : ℚ} (h : 0 ≤ x) (h' : x ≤ 1) : clampUnit x = x := by
  rw [clampUnit_eq, min_eq_left h', max_eq_right h]

theorem clampUnit_mem (x : ℚ) : 0 ≤ clampUnit x ∧ clampUnit x ≤ 1 := by
  rw [clampUnit_eq]
  exact ⟨le_max_left _ _, max_le zero_le_one (min_le_right x 1)⟩

/-! ## Weighted sums -/

section Weighted

variable {β : Type} {w a b : β → ℚ} {l : List β} {r : ℚ}

theorem abs_sum_sub_le (hw : ∀ e ∈ l, 0 ≤ w e) (h : ∀ e ∈ l, |a e - b e| ≤ r) :
    |(l.map fun e => w e * a e).sum - (l.map fun e => w e * b e).sum| ≤ r * (l.map w).sum := by
  induction l with
  | nil => simp
  | cons e rest ih =>
    obtain ⟨hwe, hwrest⟩ := List.forall_mem_cons.mp hw
    obtain ⟨he, hrest⟩ := List.forall_mem_cons.mp h
    simp only [List.map_cons, List.sum_cons]
    calc |w e * a e + (rest.map fun e => w e * a e).sum -
          (w e * b e + (rest.map fun e => w e * b e).sum)|
        = |w e * (a e - b e) + ((rest.map fun e => w e * a e).sum -
            (rest.map fun e => w e * b e).sum)| := by congr 1; ring
      _ ≤ |w e * (a e - b e)| + |(rest.map fun e => w e * a e).sum -
            (rest.map fun e => w e * b e).sum| := abs_add_le _ _
      _ ≤ w e * r + r * (rest.map w).sum := by
        rw [abs_mul, abs_of_nonneg hwe]
        gcongr
        exact ih hwrest hrest
      _ = r * (w e + (rest.map w).sum) := by ring

theorem abs_mean_sub_le (hw : ∀ e ∈ l, 0 ≤ w e) (hpos : 0 < (l.map w).sum)
    (h : ∀ e ∈ l, |a e - b e| ≤ r) :
    |(l.map fun e => w e * a e).sum / (l.map w).sum -
      (l.map fun e => w e * b e).sum / (l.map w).sum| ≤ r := by
  rw [← sub_div, abs_div, abs_of_pos hpos, div_le_iff₀ hpos]
  exact abs_sum_sub_le hw h

end Weighted

end Arith

end WebOfTrust
