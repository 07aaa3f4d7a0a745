/-!
# Arithmetic

Scoring and detection use a handful of operations on real quantities: the four rules, comparison,
values of natural numbers, truncation. They are written once over any carrier of these operations.
IEEE doubles run; exact rationals are the carrier in which laws of arithmetic hold without
rounding.

* `Arith`: the operations, with instances for `Float` and `Rat`;
* `Arith.ratio`, `Arith.magnitude`, `Arith.clampUnit`, `Arith.roundHalfUp`: what is built on them;
* `Logarithm`: the natural logarithm of a carrier;
* `WordForm`: carriers whose values have a form of 64 bits;
* `Literal`: carriers of the numbers that a text writes.
-/

namespace WebOfTrust

/-- A carrier of the real quantities of scoring and detection. -/
class Arith (α : Type) extends Zero α, One α, NatCast α, Add α, Sub α, Mul α, Div α, Neg α,
    LT α, LE α where
  decidableLT : DecidableLT α
  decidableLE : DecidableLE α
  /-- Whether a value is a number and not infinite. -/
  isFinite : α → Bool
  /-- The integer part of a value that is not negative. -/
  truncate : α → Nat

attribute [reducible, instance] Arith.decidableLT Arith.decidableLE

instance : Arith Float where
  zero := 0.0
  one := 1.0
  natCast := Float.ofNat
  decidableLT := inferInstance
  decidableLE := inferInstance
  isFinite := Float.isFinite
  truncate x := x.toUInt64.toNat

instance : Arith Rat where
  zero := 0
  one := 1
  natCast n := (n : Rat)
  decidableLT := inferInstance
  decidableLE := inferInstance
  isFinite _ := true
  truncate x := x.floor.toNat

namespace Arith

variable {α : Type} [Arith α]

/-- The quotient of two natural numbers. -/
def ratio (p q : Nat) : α := (p : α) / (q : α)

/-- One half. -/
def half : α := ratio 1 2

/-- A value without its sign. -/
def magnitude (x : α) : α := if x < 0 then -x else x

/-- The nearest value of the interval from zero to one. -/
def clampUnit (x : α) : α := if x < 0 then 0 else if 1 < x then 1 else x

/-- The smaller of a value and one. -/
def atMostOne (x : α) : α := if x < 1 then x else 1

/-- The natural number nearest to a value that is not negative; a half goes up. -/
def roundHalfUp (x : α) : Nat :=
  let whole := truncate x
  if x - (whole : α) < half then whole else whole + 1

end Arith

/-- A carrier with a natural logarithm. -/
class Logarithm (α : Type) where
  ln : α → α

instance : Logarithm Float := ⟨Float.log⟩

/-- A carrier whose values are written as words of 64 bits. -/
class WordForm (α : Type) where
  word : α → UInt64

instance : WordForm Float := ⟨Float.toBits⟩
instance : WordForm UInt64 := ⟨id⟩

/-- A carrier of the numbers that a text writes: whole ones and doubles. -/
class Literal (α : Type) where
  ofInt : Int → α
  ofFloat : Float → α

instance : Literal Float := ⟨Float.ofInt, id⟩

end WebOfTrust
