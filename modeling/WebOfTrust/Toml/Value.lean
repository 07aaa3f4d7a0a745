/-!
# Values in a TOML document

A value is a simple one, an array or a table. How a table came about decides what may be added to
it later: a table is written out once, and only those that came about on the way to others stay
open.

* `Value`, `Origin`: values, and how tables came about;
* `KeyPath`: the name of a value, below the tables it lies in;
* `changeAt?`: a change to a table within others;
* `addPair?`, `addPairs?`: values added to a table under their names.
-/

namespace WebOfTrust.Toml

/-! ## Values -/

/-- How a table came about. -/
inductive Origin where
  /-- By a header of its own. -/
  | header
  /-- On the way to another header. -/
  | implied
  /-- On the way to a value, by a dotted key. -/
  | dotted
  /-- Between braces. -/
  | inline
  /-- On the way to a value between braces, by a dotted key. -/
  | inlineDotted
deriving DecidableEq

/-- A value. -/
inductive Value where
  | string (s : String)
  | integer (n : Int)
  | float (x : Float)
  | boolean (b : Bool)
  /-- A date, a time, or both. -/
  | moment
  | array (elements : List Value)
  | table (origin : Origin) (entries : List (String × Value))
  /-- Tables that have one name and headers of their own. -/
  | tables (before : List (List (String × Value))) (last : List (String × Value))

/-- The named values of a table, in the order in which they were added. -/
abbrev Entries : Type := List (String × Value)

namespace Entries

/-- The value with a name. -/
def find? (name : String) : Entries → Option Value
  | [] => none
  | (other, v) :: rest => if other = name then some v else find? name rest

/-- The value with a name, replaced. -/
def replace (name : String) (v : Value) : Entries → Entries
  | [] => []
  | (other, w) :: rest =>
    if other = name then (other, v) :: rest else (other, w) :: replace name v rest

/-- All values but the one with a name. -/
def remove (name : String) (entries : Entries) : Entries := entries.filter (·.1 ≠ name)

end Entries

/-! ## Ways into tables -/

/-- The name of a value, below the names of the tables it lies in. -/
structure KeyPath where
  parents : List String
  name : String

/-- The path of one or more names. -/
def KeyPath.ofNames (first : String) : List String → KeyPath
  | [] => ⟨[], first⟩
  | second :: rest =>
    let path := KeyPath.ofNames second rest
    ⟨first :: path.parents, path.name⟩

/-- What leads into tables: a header, a dotted key, or a dotted key between braces. -/
inductive Way where
  | header
  | key
  | inlineKey
deriving DecidableEq

namespace Way

/-- How a table comes about that is missing on the way. -/
def origin : Way → Origin
  | header => .implied
  | key => .dotted
  | inlineKey => .inlineDotted

/-- Whether the way may lead through a table. -/
def enters : Way → Origin → Bool
  | header, origin => origin = .header || origin = .implied || origin = .dotted
  | key, origin => origin = .implied || origin = .dotted
  | inlineKey, origin => origin = .inlineDotted

end Way

/-- Change the table at the end of a way. Of several tables with one name the way leads into the
last. -/
def changeAt? (way : Way) (change : Origin → Entries → Option Entries) :
    (parents : List String) → Origin → Entries → Option Entries
  | [], origin, entries => change origin entries
  | name :: parents, _, entries =>
    match entries.find? name with
    | none =>
      match changeAt? way change parents way.origin [] with
      | some inner => some (entries ++ [(name, .table way.origin inner)])
      | none => none
    | some (.table origin inner) =>
      if way.enters origin then
        match changeAt? way change parents origin inner with
        | some inner' => some (entries.replace name (.table origin inner'))
        | none => none
      else none
    | some (.tables before last) =>
      if way = .inlineKey then none
      else
        match changeAt? way change parents .header last with
        | some last' => some (entries.replace name (.tables before last'))
        | none => none
    | some _ => none

/-- Add a value to a table under a new name. A dotted key ends in a table that dotted keys made,
and a plain key in one that they did not make. -/
def addPair? (way : Way) (entries : Entries) (pair : KeyPath × Value) : Option Entries :=
  let (path, v) := pair
  let add (origin : Origin) (inner : Entries) : Option Entries :=
    let made : Bool := origin = .dotted || origin = .inlineDotted
    if made = path.parents.isEmpty then none
    else if (inner.find? path.name).isSome then none
    else some (inner ++ [(path.name, v)])
  changeAt? way add path.parents .header entries

/-- Add some values to a table. -/
def addPairs? (way : Way) : List (KeyPath × Value) → Entries → Option Entries
  | [], entries => some entries
  | pair :: rest, entries =>
    match addPair? way entries pair with
    | some entries' => addPairs? way rest entries'
    | none => none

end WebOfTrust.Toml
