import WebOfTrust.Toml.Moment
import WebOfTrust.Toml.Number
import WebOfTrust.Toml.Value

/-!
# Reading keys and values

A key is a name, or several names with dots between them. A value may be written over several
lines only within an array or a string that is meant for it.

* `keyPath`, `keyValue`: keys, and keys with their values;
* `simple`, `array`, `inlineTable`: the kinds of values;
* `value`: values nested to some depth.
-/

namespace WebOfTrust.Toml

/-! ## Keys -/

/-- The nesting that is refused, of values in values and of names in a key. -/
def depthLimit : Nat := 80

/-- The characters of names without quotes. -/
def isBareKeyCharacter (c : Char) : Bool := c.isAlphanum || c = '_' || c = '-'

/-- A name without quotes. -/
def bareName : Reader String := fun cs =>
  match cs.takeWhile isBareKeyCharacter with
  | [] => none
  | name => some (String.ofList name, cs.dropWhile isBareKeyCharacter)

/-- A name, with the blanks around it. -/
def keyName : Reader String := fun cs =>
  let cs := skipBlanks cs
  let found :=
    match quotedName cs with
    | some found => some found
    | none => bareName cs
  found.map fun (name, rest) => (name, skipBlanks rest)

/-- What follows a separator. -/
def following {β : Type} (separator : Char) (read : Reader β) : Reader β
  | [] => none
  | c :: rest => if c = separator then read rest else none

/-- A key: names with dots between them. -/
def keyPath : Reader KeyPath := fun cs =>
  match keyName cs with
  | none => none
  | some (first, rest) =>
    let (others, rest') := repeated (following '.' keyName) rest
    if others.length + 1 < depthLimit then some (KeyPath.ofNames first others, rest') else none

/-- A key and its value. -/
def keyValue (value : Reader Value) : Reader (KeyPath × Value) := fun cs =>
  match keyPath cs with
  | some (path, '=' :: rest) =>
    match value (skipBlanks rest) with
    | some (v, rest') => some ((path, v), skipBlanks rest')
    | none => none
  | _ => none

/-! ## The reader of values -/

/-- True or false. -/
def boolean : Reader Bool
  | 't' :: 'r' :: 'u' :: 'e' :: rest => some (true, rest)
  | 'f' :: 'a' :: 'l' :: 's' :: 'e' :: rest => some (false, rest)
  | _ => none

/-- A value that holds no others. -/
def simple : Reader Value := fun cs =>
  match string cs with
  | some (s, rest) => some (.string s, rest)
  | none =>
    match moment cs with
    | some (_, rest) => some (.moment, rest)
    | none =>
      match float cs with
      | some (x, rest) => some (.float x, rest)
      | none =>
        match integer cs with
        | some (n, rest) => some (.integer n, rest)
        | none => (boolean cs).map fun (b, rest) => (.boolean b, rest)

/-- A value with the layout around it. -/
def element (value : Reader Value) : Reader Value := fun cs =>
  (value (skipLayout false cs)).map fun (v, rest) => (v, skipLayout false rest)

/-- An array after its opening bracket. A comma may follow the last element. -/
def array (value : Reader Value) : Reader Value := fun cs =>
  match element value cs with
  | none =>
    match skipLayout false cs with
    | ']' :: rest => some (.array [], rest)
    | _ => none
  | some (first, rest) =>
    let (others, rest) := repeated (following ',' (element value)) rest
    match rest with
    | ']' :: rest => some (.array (first :: others), rest)
    | ',' :: rest =>
      match skipLayout false rest with
      | ']' :: rest => some (.array (first :: others), rest)
      | _ => none
    | _ => none

/-- A table after its opening brace. -/
def inlineTable (value : Reader Value) : Reader Value := fun cs =>
  match keyValue value cs with
  | none =>
    match skipBlanks cs with
    | '}' :: rest => some (.table .inline [], rest)
    | _ => none
  | some (first, rest) =>
    match repeated (following ',' (keyValue value)) rest with
    | (others, '}' :: rest) =>
      (addPairs? .inlineKey (first :: others) []).map fun entries =>
        (.table .inline entries, rest)
    | _ => none

/-- A value within which others may be nested to some depth. -/
def value : (depth : Nat) → Reader Value
  | 0 => simple
  | depth + 1 => fun cs =>
    match cs with
    | '[' :: rest => array (value depth) rest
    | '{' :: rest => inlineTable (value depth) rest
    | _ => simple cs

end WebOfTrust.Toml
