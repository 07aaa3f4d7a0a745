import WebOfTrust.Toml.Text

/-!
# Dates and times in a TOML document

A date of the calendar, a time of day, or both with an offset or without one. The settings have no
use for any of them, so that a reader only finds where one ends.

* `date`, `time`, `offset`: the parts;
* `moment`: what is written of them together.
-/

namespace WebOfTrust.Toml

/-- A number of exactly so many digits, after some that were read. -/
def fixed : (digits : Nat) → (before : Nat) → Reader Nat
  | 0, n, cs => some (n, cs)
  | digits + 1, n, c :: rest =>
    if c.isDigit then fixed digits (10 * n + (c.toNat - '0'.toNat)) rest else none
  | _ + 1, _, [] => none

/-- Two digits that write a number from some bound to another. -/
def twoDigits (low high : Nat) : Reader Nat := fun cs =>
  match fixed 2 0 cs with
  | some (n, rest) => if low ≤ n ∧ n ≤ high then some (n, rest) else none
  | none => none

/-- Two digits like that after a separator. -/
def twoDigitsAfter (separator : Char) (low high : Nat) : Reader Nat
  | [] => none
  | c :: rest => if c = separator then twoDigits low high rest else none

/-- The number of days in a month. -/
def daysIn (year month : Nat) : Nat :=
  if month = 2 then
    if year % 4 = 0 ∧ (year % 100 ≠ 0 ∨ year % 400 = 0) then 29 else 28
  else if month = 4 ∨ month = 6 ∨ month = 9 ∨ month = 11 then 30
  else 31

/-- What follows a date. -/
def date (cs : List Char) : Option (List Char) :=
  match fixed 4 0 cs with
  | none => none
  | some (year, cs) =>
    match twoDigitsAfter '-' 1 12 cs with
    | none => none
    | some (month, cs) =>
      match twoDigitsAfter '-' 1 (daysIn year month) cs with
      | none => none
      | some (_, rest) => some rest

/-- What follows the places of a second, if there are any. -/
def skipPlaces : List Char → List Char
  | '.' :: c :: rest => if c.isDigit then rest.dropWhile Char.isDigit else '.' :: c :: rest
  | cs => cs

/-- What follows a time of day, which may have a leap second. -/
def time (cs : List Char) : Option (List Char) :=
  match twoDigits 0 23 cs with
  | none => none
  | some (_, cs) =>
    match twoDigitsAfter ':' 0 59 cs with
    | none => none
    | some (_, cs) =>
      match twoDigitsAfter ':' 0 60 cs with
      | none => none
      | some (_, rest) => some (skipPlaces rest)

/-- What follows the offset of a time, if there is one. -/
def skipOffset : List Char → List Char
  | [] => []
  | c :: rest =>
    if c = 'Z' ∨ c = 'z' then rest
    else if c = '+' ∨ c = '-' then
      match twoDigits 0 23 rest with
      | some (_, minutes) =>
        match twoDigitsAfter ':' 0 59 minutes with
        | some (_, rest') => rest'
        | none => c :: rest
      | none => c :: rest
    else c :: rest

/-- What follows a date, with the time that belongs to it. -/
def skipTime : List Char → List Char
  | [] => []
  | c :: rest =>
    if c = 'T' ∨ c = 't' ∨ c = ' ' then
      match time rest with
      | some rest' => skipOffset rest'
      | none => c :: rest
    else c :: rest

/-- A date, a time, or both. -/
def moment : Reader Unit := fun cs =>
  match date cs with
  | some rest => some ((), skipTime rest)
  | none => (time cs).map fun rest => ((), rest)

end WebOfTrust.Toml
