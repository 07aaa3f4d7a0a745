import Mathlib
import WebOfTrust.Proofs.Arith.Ordered

/-!
# Rounded arithmetic

A rounding sends every rational to one of those that it keeps. Arithmetic that rounds the exact
result of every operation is monotone if the rounding is, as rounding to the nearest value is.

* `Rounding`: monotone roundings that keep zero and one; `Rounding.down`: to multiples of a unit
  fraction;
* `Rounded`: the rationals that a rounding keeps, with rounded operations, as a carrier;
* the instance of `MonotoneArith` for them.
-/

namespace WebOfTrust

/-- A monotone choice of a value near every rational. -/
structure Rounding where
  round : ℚ → ℚ
  mono : Monotone round
  idem : ∀ x, round (round x) = round x
  zero : round 0 = 0
  one : round 1 = 1

/-- The rationals that a rounding keeps. -/
def Rounded (ρ : Rounding) : Type := {x : ℚ // ρ.round x = x}

namespace Rounded

variable {ρ : Rounding}

/-- The kept value for a rational. -/
def of (ρ : Rounding) (x : ℚ) : Rounded ρ := ⟨ρ.round x, ρ.idem x⟩

theorem of_val (x : Rounded ρ) : of ρ x.val = x := Subtype.ext x.property

instance : Arith (Rounded ρ) where
  zero := ⟨0, ρ.zero⟩
  one := ⟨1, ρ.one⟩
  natCast n := of ρ n
  add x y := of ρ (x.val + y.val)
  sub x y := of ρ (x.val - y.val)
  mul x y := of ρ (x.val * y.val)
  div x y := of ρ (x.val / y.val)
  neg x := of ρ (-x.val)
  lt x y := x.val < y.val
  le x y := x.val ≤ y.val
  decidableLT x y := inferInstanceAs (Decidable (x.val < y.val))
  decidableLE x y := inferInstanceAs (Decidable (x.val ≤ y.val))
  isFinite _ := true
  truncate x := x.val.floor.toNat

theorem of_le_of {x y : ℚ} (h : x ≤ y) : of ρ x ≤ of ρ y := ρ.mono h

theorem of_zero : of ρ 0 = 0 := Subtype.ext ρ.zero

/-- **Rounded operations are monotone.** -/
instance : MonotoneArith (Rounded ρ) where
  le_refl x := le_refl x.val
  le_trans x y z h h' := le_trans (show x.val ≤ y.val from h) h'
  le_antisymm x y h h' := Subtype.ext (le_antisymm h h')
  le_total x y := le_total x.val y.val
  lt_iff x y := show x.val < y.val ↔ x.val ≤ y.val ∧ ¬ y.val ≤ x.val from lt_iff_le_not_ge
  one_pos := show (0 : ℚ) < 1 from zero_lt_one
  natCast_nonneg n := by
    rw [← of_zero]
    exact of_le_of (Nat.cast_nonneg n)
  natCast_pos n hn := by
    have hle : ρ.round 1 ≤ ρ.round n := ρ.mono (Nat.one_le_cast.mpr hn)
    rw [ρ.one] at hle
    exact zero_lt_one.trans_le hle
  add_zero x := by
    show of ρ (x.val + 0) = x
    rw [add_zero, of_val]
  mul_zero x := by
    show of ρ (x.val * 0) = 0
    rw [mul_zero, of_zero]
  zero_div x _ := by
    show of ρ (0 / x.val) = 0
    rw [zero_div, of_zero]
  add_le_add h h' := of_le_of (add_le_add h h')
  mul_le_mul_left hw h := of_le_of (mul_le_mul_of_nonneg_left h hw)
  div_le_div_right hd h := of_le_of (div_le_div_of_nonneg_right h (le_of_lt hd))

end Rounded

/-- Rounding down to multiples of a unit fraction. -/
def Rounding.down (n : ℕ) (hn : 0 < n) : Rounding where
  round x := ⌊x * n⌋ / n
  mono x y h := by
    dsimp only
    gcongr
  idem x := by
    have hne : (n : ℚ) ≠ 0 := Nat.cast_ne_zero.mpr hn.ne'
    rw [div_mul_cancel₀ _ hne, Int.floor_intCast]
  zero := by simp
  one := by
    have hne : (n : ℚ) ≠ 0 := Nat.cast_ne_zero.mpr hn.ne'
    rw [one_mul, Int.floor_natCast, Int.cast_natCast, div_self hne]

end WebOfTrust
