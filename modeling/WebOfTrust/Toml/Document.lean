import WebOfTrust.Toml.Value.Reader

/-!
# TOML documents

A document is a table. Its lines add named values to it, or to the table that the last header
opened below it.

* `Line`: the lines of a document, read by `line`;
* `Section`: a header with the lines that belong to it; `Section.addTo?` enters it;
* `read?`: the table of a document.
-/

namespace WebOfTrust.Toml

/-- A line. -/
inductive Line where
  /-- Nothing, or a comment. -/
  | blank
  | pair (pair : KeyPath × Value)
  /-- The header of a table. -/
  | header (path : KeyPath)
  /-- The header of one of several tables with one name. -/
  | elementHeader (path : KeyPath)

/-- A line, provided that nothing else follows on it. -/
def ended (found : Line) (cs : List Char) : Option (Line × List Char) :=
  (lineEnd? cs).map fun rest => (found, rest)

/-- A line with more than blanks and comments. -/
def contentLine : Reader Line
  | '[' :: '[' :: rest =>
    match keyPath rest with
    | some (path, ']' :: ']' :: rest) => ended (.elementHeader path) rest
    | _ => none
  | '[' :: rest =>
    match keyPath rest with
    | some (path, ']' :: rest) => ended (.header path) rest
    | _ => none
  | cs =>
    match keyValue (value (depthLimit - 1)) cs with
    | some (pair, rest) => ended (.pair pair) rest
    | none => none

/-- A line with at least one character. -/
def line : Reader Line
  | [] => none
  | cs =>
    match lineEnd? cs with
    | some rest => some (.blank, rest)
    | none => contentLine (skipBlanks cs)

/-- What a header opens. -/
inductive Place where
  | table (path : KeyPath)
  | element (path : KeyPath)

/-- A header with the named values that follow it. -/
structure Section where
  place : Place
  pairs : List (KeyPath × Value)

/-- The named values before the first header, and the sections. -/
def sections : List Line → List (KeyPath × Value) × List Section
  | [] => ([], [])
  | l :: rest =>
    let (pairs, later) := sections rest
    match l with
    | .blank => (pairs, later)
    | .pair pair => (pair :: pairs, later)
    | .header path => ([], ⟨.table path, pairs⟩ :: later)
    | .elementHeader path => ([], ⟨.element path, pairs⟩ :: later)

/-- Enter the table of a header. If it came about on the way to others, its values are added. -/
def addTable? (name : String) (pairs : List (KeyPath × Value)) (entries : Entries) :
    Option Entries :=
  match entries.find? name with
  | none =>
    (addPairs? .key pairs []).map fun body => entries ++ [(name, .table .header body)]
  | some (.table .implied inner) =>
    (addPairs? .key pairs inner).map fun body =>
      entries.remove name ++ [(name, .table .header body)]
  | some _ => none

/-- Enter one of several tables with one name. -/
def addElement? (name : String) (pairs : List (KeyPath × Value)) (entries : Entries) :
    Option Entries :=
  match addPairs? .key pairs [] with
  | none => none
  | some body =>
    match entries.find? name with
    | none => some (entries ++ [(name, .tables [] body)])
    | some (.tables before last) => some (entries.replace name (.tables (before ++ [last]) body))
    | some _ => none

/-- Enter a section into the table of a document. -/
def Section.addTo? (s : Section) (root : Entries) : Option Entries :=
  match s.place with
  | .table path =>
    changeAt? .header (fun _ => addTable? path.name s.pairs) path.parents .header root
  | .element path =>
    changeAt? .header (fun _ => addElement? path.name s.pairs) path.parents .header root

/-- Enter some sections. -/
def addSections? : List Section → Entries → Option Entries
  | [], root => some root
  | s :: rest, root =>
    match s.addTo? root with
    | some root' => addSections? rest root'
    | none => none

/-- A text without the byte order mark at its front. -/
def skipByteOrderMark : List Char → List Char
  | '\uFEFF' :: rest => rest
  | cs => cs

/-- The table of a document. -/
def read? (text : String) : Option Entries :=
  match repeated line (skipByteOrderMark text.toList) with
  | (lines, []) =>
    let (pairs, later) := sections lines
    match addPairs? .key pairs [] with
    | some root => addSections? later root
    | none => none
  | _ => none

end WebOfTrust.Toml
