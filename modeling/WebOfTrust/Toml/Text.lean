/-!
# The text of a TOML document

The smallest parts of a document: blanks, line ends, comments and strings. A reader takes a value
from the front of a text, and fails if none stands there; what it leaves has to be read by others.

* `Reader`: readers; `repeated`: as many values as there are;
* `skipBlanks`, `skipLines`, `skipLayout`, `lineEnd?`: what stands between values;
* `string`: the four kinds of strings;
* `quotedName`: those that may be a key.
-/

namespace WebOfTrust.Toml

/-- A reader: the value at the front of a text, and the rest of the text. -/
abbrev Reader (β : Type) : Type := List Char → Option (β × List Char)

/-- At most so many values, one after the other, and the rest of the text. -/
def many {β : Type} (read : Reader β) : (bound : Nat) → List Char → List β × List Char
  | 0, cs => ([], cs)
  | bound + 1, cs =>
    match read cs with
    | some (x, rest) =>
      let (xs, rest') := many read bound rest
      (x :: xs, rest')
    | none => ([], cs)

/-- As many values as there are, each of at least one character. -/
def repeated {β : Type} (read : Reader β) (cs : List Char) : List β × List Char :=
  many read cs.length cs

/-! ## Between values -/

/-- The characters that separate words on a line. -/
def isBlank (c : Char) : Bool := c = ' ' || c = '\t'

/-- The characters that comments and strings may hold: all but control characters. -/
def isPrintable (c : Char) : Bool := c = '\t' || (' ' ≤ c && c ≠ '\x7f')

/-- A text without the blanks at its front. -/
def skipBlanks (cs : List Char) : List Char := cs.dropWhile isBlank

/-- A text without the line end at its front. -/
def newline? : List Char → Option (List Char)
  | '\n' :: rest => some rest
  | '\r' :: '\n' :: rest => some rest
  | _ => none

/-- A text without the comment at its front. -/
def skipComment : List Char → List Char
  | '#' :: rest => rest.dropWhile isPrintable
  | cs => cs

/-- A text without the blanks and line ends at its front. -/
def skipLines : List Char → List Char
  | [] => []
  | '\r' :: '\n' :: rest => skipLines rest
  | c :: rest => if c = '\n' || isBlank c then skipLines rest else c :: rest

/-- What follows on the next line, when nothing but a comment is left on this one. -/
def lineEnd? (cs : List Char) : Option (List Char) :=
  match skipComment (skipBlanks cs) with
  | [] => some []
  | rest => newline? rest

/-- A text without the blanks, line ends and comments at its front; it may begin within a
comment. -/
def skipLayout (comment : Bool) : List Char → List Char
  | [] => []
  | '\r' :: '\n' :: rest => skipLayout false rest
  | c :: rest =>
    if c = '\n' then skipLayout false rest
    else if comment && isPrintable c then skipLayout true rest
    else if !comment && isBlank c then skipLayout false rest
    else if !comment && c = '#' then skipLayout true rest
    else c :: rest

/-! ## Characters of strings -/

/-- The value of a hexadecimal digit. -/
def hexValue? (c : Char) : Option Nat :=
  if '0' ≤ c ∧ c ≤ '9' then some (c.toNat - '0'.toNat)
  else if 'a' ≤ c ∧ c ≤ 'f' then some (c.toNat - 'a'.toNat + 10)
  else if 'A' ≤ c ∧ c ≤ 'F' then some (c.toNat - 'A'.toNat + 10)
  else none

/-- The character with a number of so many hexadecimal digits, after some that were read. -/
def codePoint : (digits : Nat) → (before : Nat) → Reader Char
  | 0, n, cs => if n.isValidChar then some (Char.ofNat n, cs) else none
  | digits + 1, n, c :: rest =>
    match hexValue? c with
    | some d => codePoint digits (16 * n + d) rest
    | none => none
  | _ + 1, _, [] => none

/-- The character that an escape sequence stands for. -/
def escape : Reader Char
  | '\\' :: 'b' :: rest => some ('\x08', rest)
  | '\\' :: 't' :: rest => some ('\t', rest)
  | '\\' :: 'n' :: rest => some ('\n', rest)
  | '\\' :: 'f' :: rest => some ('\x0c', rest)
  | '\\' :: 'r' :: rest => some ('\r', rest)
  | '\\' :: '"' :: rest => some ('"', rest)
  | '\\' :: '\\' :: rest => some ('\\', rest)
  | '\\' :: 'u' :: rest => codePoint 4 0 rest
  | '\\' :: 'U' :: rest => codePoint 8 0 rest
  | _ => none

/-- A character between double quotes. -/
def basicCharacter : Reader Char
  | [] => none
  | c :: rest =>
    if c = '\\' then escape (c :: rest)
    else if isPrintable c && c ≠ '"' then some (c, rest)
    else none

/-- A character between single quotes, where nothing is escaped. -/
def literalCharacter : Reader Char
  | [] => none
  | c :: rest => if isPrintable c && c ≠ '\'' then some (c, rest) else none

/-! ## Strings on one line -/

/-- The rest of a string on one line, with the quote that ends it. -/
def closing (quote : Char) (character : Reader Char) : Reader String := fun cs =>
  match repeated character cs with
  | (content, c :: rest) => if c = quote then some (String.ofList content, rest) else none
  | (_, []) => none

/-- A string on one line. -/
def quotedName : Reader String
  | '"' :: rest => closing '"' basicCharacter rest
  | '\'' :: rest => closing '\'' literalCharacter rest
  | _ => none

/-! ## Strings over several lines -/

/-- A backslash at the end of a line, with all blanks and line ends that follow it. -/
def lineJoin : Reader (List Char)
  | '\\' :: rest =>
    match newline? (skipBlanks rest) with
    | some rest' => some ([], skipLines rest')
    | none => none
  | _ => none

/-- One or two quotes within a string over several lines. -/
def innerQuotes (quote : Char) : Reader (List Char) := fun cs =>
  let run := cs.takeWhile (· = quote)
  if run.length = 1 ∨ run.length = 2 then some (run, cs.drop run.length) else none

/-- A piece of a string over several lines. Every line end counts as one line feed. -/
def piece (quote : Char) (character : Reader Char) : Reader (List Char) := fun cs =>
  match newline? cs with
  | some rest => some (['\n'], rest)
  | none =>
    match innerQuotes quote cs with
    | some found => some found
    | none =>
      match character cs with
      | some (c, rest) => some ([c], rest)
      | none => none

/-- A piece of a string between double quotes, where a line may be joined to the next. -/
def basicPiece : Reader (List Char) := fun cs =>
  match lineJoin cs with
  | some found => some found
  | none => piece '"' basicCharacter cs

/-- The rest of a string over several lines. A line end at its front does not count. Three quotes
end it, and up to two more before them belong to it. -/
def closingLines (quote : Char) (piece : Reader (List Char)) : Reader String := fun cs =>
  let (content, rest) := repeated piece ((newline? cs).getD cs)
  let quotes := (rest.takeWhile (· = quote)).length
  if quotes < 3 then none
  else
    let inner := min (quotes - 3) 2
    some (String.ofList (content.flatten ++ List.replicate inner quote), rest.drop (inner + 3))

/-- A string. -/
def string : Reader String
  | '"' :: '"' :: '"' :: rest => closingLines '"' basicPiece rest
  | '\'' :: '\'' :: '\'' :: rest => closingLines '\'' (piece '\'' literalCharacter) rest
  | cs => quotedName cs

end WebOfTrust.Toml
