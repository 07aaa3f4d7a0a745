/-!
# The shortest decimal of a double

A finite double stands for an interval of reals, those that round to it. Among the decimals in the
interval the text of the double takes one with the fewest digits, and of those the nearest; of two
equally near ones it takes the greater. All comparisons are exact, in natural numbers.

* `Target`: a positive double with its interval;
* `Target.onGrid?`: the decimal taken among the multiples of one power of ten;
* `Target.shortest`: the decimal on the coarsest grid that meets the interval;
* `positional`: digits and a power of ten, written without an exponent;
* `ofFloat`: the text of a double.
-/

namespace WebOfTrust.Decimal

/-- A positive value and the ends of the interval that rounds to it, all three as multiples of
one power of two. -/
structure Target where
  low : Nat
  value : Nat
  high : Nat
  exponent : Int
  /-- Whether the ends belong to the interval. -/
  closed : Bool

namespace Target

/-- A positive finite double: its exponent field and the lower bits. The multiples are quarters of
its last place, because below a power of two the doubles stand twice as close. -/
def ofFields (exponent fraction : Nat) : Target :=
  let mantissa := if exponent = 0 then fraction else fraction + 1 <<< 52
  { low := if fraction = 0 ∧ 1 < exponent then 4 * mantissa - 1 else 4 * mantissa - 2
    value := 4 * mantissa
    high := 4 * mantissa + 2
    exponent := (max exponent 1 : Nat) - 1077
    closed := mantissa % 2 = 0 }

variable (t : Target)

/-- The grid of the multiples of `10 ^ p` in terms of the power of two: a fraction. -/
def step (p : Int) : Nat × Nat :=
  (Nat.pow 10 p.toNat <<< (-t.exponent).toNat, Nat.pow 10 (-p).toNat <<< t.exponent.toNat)

/-- The number of whole grid steps in the value. -/
def below (p : Int) : Nat := t.value * (t.step p).2 / (t.step p).1

/-- Whether a multiple of `10 ^ p` lies in the interval. -/
def meets (p : Int) (d : Nat) : Bool :=
  let (num, den) := t.step p
  if t.closed then t.low * den ≤ d * num ∧ d * num ≤ t.high * den
  else t.low * den < d * num ∧ d * num < t.high * den

/-- The multiple of `10 ^ p` in the interval that is nearest to the value. -/
def onGrid? (p : Int) : Option Nat :=
  let (num, den) := t.step p
  let d := t.below p
  match t.meets p d, t.meets p (d + 1) with
  | true, true => if 2 * (t.value * den) < (2 * d + 1) * num then some d else some (d + 1)
  | true, false => some d
  | false, true => some (d + 1)
  | false, false => none

/-- Go to finer and finer grids until one meets the interval. -/
def descend : Nat → Int → Nat × Int
  | 0, p => (t.below p, p)
  | steps + 1, p =>
    match t.onGrid? p with
    | some d => (d, p)
    | none => descend steps (p - 1)

/-- The shortest decimal, as a natural number times a power of ten. The search begins above the
value and ends, at the latest, on a grid that has the value itself. -/
def shortest : Nat × Int :=
  let coarsest : Int := (t.value.log2 + 1 + t.exponent).toNat / 3 + 1
  t.descend (coarsest - min t.exponent 0).toNat coarsest

end Target

/-- A natural number times a power of ten, written with all its places. -/
def positional (digits : Nat) (p : Int) : String :=
  if 0 ≤ p then toString (digits * Nat.pow 10 p.toNat)
  else
    let places := (-p).toNat
    let tail := toString (digits % Nat.pow 10 places)
    let zeros := String.ofList (List.replicate (places - tail.length) '0')
    toString (digits / Nat.pow 10 places) ++ "." ++ zeros ++ tail

/-- The text of a double: its shortest decimal without an exponent. -/
def ofFloat (x : Float) : String :=
  let word := x.toBits.toNat
  let exponent := (word >>> 52) % 2048
  let fraction := word % 1 <<< 52
  if exponent = 2047 ∧ fraction ≠ 0 then "NaN"
  else
    let size :=
      if exponent = 2047 then "inf"
      else if exponent = 0 ∧ fraction = 0 then "0"
      else
        let (digits, p) := (Target.ofFields exponent fraction).shortest
        positional digits p
    if word < 1 <<< 63 then size else "-" ++ size

end WebOfTrust.Decimal
