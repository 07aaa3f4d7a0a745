import WebOfTrust.Toml.Text

/-!
# Numbers in a TOML document

Digits may be set apart by single underscores. A number in decimal notation has no leading zeros.
Integers have 64 bits; a fraction is the double nearest to what is written.

* `digits`: digits with underscores between them;
* `integer`: integers, in decimal notation or with the base 16, 8 or 2;
* `float`: numbers with a fraction or an exponent, infinities, and what is not a number.
-/

namespace WebOfTrust.Toml

/-- Further digits of some kind. -/
def moreDigits (isDigit : Char → Bool) : List Char → List Char × List Char
  | [] => ([], [])
  | [c] => if isDigit c then ([c], []) else ([], [c])
  | c :: d :: rest =>
    if c = '_' then
      if isDigit d then
        let (found, rest') := moreDigits isDigit rest
        (d :: found, rest')
      else ([], c :: d :: rest)
    else if isDigit c then
      let (found, rest') := moreDigits isDigit (d :: rest)
      (c :: found, rest')
    else ([], c :: d :: rest)

/-- Digits of some kind, at least one. -/
def digits (isDigit : Char → Bool) : Reader (List Char)
  | [] => none
  | c :: rest =>
    if isDigit c then
      let (found, rest') := moreDigits isDigit rest
      some (c :: found, rest')
    else none

/-- The number that digits write in some base. -/
def numeral (base : Nat) (found : List Char) : Nat :=
  found.foldl (fun n c => base * n + (hexValue? c).getD 0) 0

/-- Whether a number begins with a minus sign, and what follows the sign. -/
def sign : List Char → Bool × List Char
  | '-' :: rest => (true, rest)
  | '+' :: rest => (false, rest)
  | cs => (false, cs)

/-- The digits of a whole number without leading zeros. -/
def whole : Reader (List Char)
  | '0' :: rest => some (['0'], rest)
  | cs => digits Char.isDigit cs

/-! ## Integers -/

/-- The digits of a base. -/
def isDigitOf (base : Nat) (c : Char) : Bool :=
  match hexValue? c with
  | some d => d < base
  | none => false

/-- An integer, if 64 bits can write it. -/
def bounded (n : Int) : Option Int :=
  if Int64.minValue.toInt ≤ n ∧ n ≤ Int64.maxValue.toInt then some n else none

/-- A natural number in some base. -/
def natural (base : Nat) : Reader Int := fun cs =>
  match digits (isDigitOf base) cs with
  | some (found, rest) => (bounded (numeral base found)).map fun n => (n, rest)
  | none => none

/-- An integer in decimal notation. -/
def decimal : Reader Int := fun cs =>
  let (negative, cs) := sign cs
  match whole cs with
  | some (found, rest) =>
    let n : Int := numeral 10 found
    (bounded (if negative then -n else n)).map fun n => (n, rest)
  | none => none

/-- An integer. -/
def integer : Reader Int
  | '0' :: 'x' :: rest => natural 16 rest
  | '0' :: 'o' :: rest => natural 8 rest
  | '0' :: 'b' :: rest => natural 2 rest
  | cs => decimal cs

/-! ## Fractions -/

/-- The digits after the point, if there is one. -/
def fraction : List Char → Option (List Char × List Char)
  | '.' :: rest => digits Char.isDigit rest
  | cs => some ([], cs)

/-- The exponent, if there is one. -/
def exponent : List Char → Option (Int × List Char)
  | [] => some (0, [])
  | c :: rest =>
    if c = 'e' ∨ c = 'E' then
      let (negative, rest) := sign rest
      match digits Char.isDigit rest with
      | some (found, rest) =>
        let n : Int := numeral 10 found
        some (if negative then -n else n, rest)
      | none => none
    else some (0, c :: rest)

/-- The double nearest to a natural number times a power of ten. -/
def nearest (n : Nat) (power : Int) : Float := Float.ofScientific n (power < 0) power.natAbs

/-- A value with the sign that was written. -/
def signed (negative : Bool) (x : Float) : Float := if negative then -x else x

/-- A number with a fraction or an exponent. Too large a number is refused, but not one that is
below all others. -/
def scientific : Reader Float := fun cs =>
  let (negative, cs) := sign cs
  match whole cs with
  | none => none
  | some (before, afterWhole) =>
    match fraction afterWhole with
    | none => none
    | some (places, afterPlaces) =>
      match exponent afterPlaces with
      | none => none
      | some (power, rest) =>
        if rest.length = afterWhole.length then none
        else
          let x := nearest (numeral 10 (before ++ places)) (power - places.length)
          if x.isInf && !negative then none else some (signed negative x, rest)

/-- An infinity, or what is not a number. -/
def special : Reader Float := fun cs =>
  match sign cs with
  | (negative, 'i' :: 'n' :: 'f' :: rest) => some (signed negative (1 / 0), rest)
  | (negative, 'n' :: 'a' :: 'n' :: rest) => some (signed negative (0 / 0), rest)
  | _ => none

/-- A number that is not an integer. -/
def float : Reader Float := fun cs =>
  match scientific cs with
  | some found => some found
  | none => special cs

end WebOfTrust.Toml
