import ImageBuild.Toml.Scalar

/-!
# `ImageBuild.Toml.Document`: settings files

A file is a list of lines: entries `key = value`, headers `[key]` that open a table, and headers
`[[key]]` that open a further element of an array of tables. `Document` is the tree that the lines
build; what a table was made by decides who may still add to it. `parse?` is the tree as a value,
or `none` if the text is no valid file.
-/

set_option autoImplicit false

namespace ImageBuild.Toml

/-! ### Values -/

/-- The first depth to which collections may not lie in each other, and the first number of parts
that a key may not have. -/
def nestingLimit : Nat := 80

/-- What made a table. -/
inductive Origin
  /-- A header of its own. -/
  | header
  /-- A longer header. -/
  | implied
  /-- A key with dots. -/
  | dotted
  deriving DecidableEq, Repr

/-- A part of a file that is being read. -/
inductive Node
  /-- A value, to which nothing can be added. -/
  | leaf (v : Value)
  | table (origin : Origin) (entries : List (String × Node))
  /-- Tables under one `[[key]]`, latest first. -/
  | tables (latest : List (String × Node)) (earlier : List Node)
  deriving Repr, Inhabited

namespace Node

mutual

/-- The node as a value. -/
def toValue : Node → Value
  | .leaf v => v
  | .table _ entries => .table (toEntries entries)
  | .tables latest earlier => .array (toItems earlier ++ [.table (toEntries latest)])

/-- Entries as values. -/
def toEntries : List (String × Node) → List (String × Value)
  | [] => []
  | (key, n) :: rest => (key, toValue n) :: toEntries rest

/-- Nodes as values, in reverse. -/
def toItems : List Node → List Value
  | [] => []
  | n :: rest => toItems rest ++ [toValue n]

end

end Node

/-- The entries of a table that is being read. -/
abbrev Document := List (String × Node)

namespace Document

/-- The entries with another node under a key; a new key comes last. -/
def put (d : Document) (key : String) (n : Node) : Document :=
  match d with
  | [] => [(key, n)]
  | e :: rest => if e.1 = key then (key, n) :: rest else e :: put rest key n

/-- The entries after a change of the table that headers reach by a path. Tables on the way that
are not there yet are implied; of tables under `[[key]]`, the latest is meant. -/
def change (d : Document) (f : Document → Option Document) : List String → Option Document
  | [] => f d
  | key :: path =>
    match d.lookup key with
    | none => (change [] f path).map fun inner => d.put key (.table .implied inner)
    | some (.table origin inner) =>
      (change inner f path).map fun inner => d.put key (.table origin inner)
    | some (.tables latest earlier) =>
      (change latest f path).map fun latest => d.put key (.tables latest earlier)
    | some (.leaf _) => none

/-- Adds an entry. The tables on the way are those of dotted keys: a table with a header of its
own takes no part, and the last table of the way must have been made by a dotted key. -/
def insert (d : Document) (key : String) (v : Value) :
    List String → (ofDotted : Bool) → Option Document
  | [], ofDotted =>
    if ofDotted && (d.lookup key).isNone then some (d.put key (.leaf v)) else none
  | part :: path, _ =>
    match d.lookup part with
    | none => (insert [] key v path true).map fun inner => d.put part (.table .dotted inner)
    | some (.table .header _) => none
    | some (.table origin inner) =>
      (insert inner key v path (origin == .dotted)).map fun inner =>
        d.put part (.table origin inner)
    | some (.tables latest earlier) =>
      (insert latest key v path false).map fun latest => d.put part (.tables latest earlier)
    | some (.leaf _) => none

/-- Adds an entry under a key with dots. -/
def insertAt (d : Document) (path : List String) (v : Value) : Option Document :=
  match path.getLast? with
  | some key => d.insert key v path.dropLast true
  | none => none

/-- Opens the table with a key, which must be new or implied. -/
def openTable (key : String) (d : Document) : Option Document :=
  match d.lookup key with
  | none => some (d.put key (.table .header []))
  | some (.table .implied inner) => some (d.put key (.table .header inner))
  | some _ => none

/-- Opens a further table in the array of tables with a key. -/
def openElement (key : String) (d : Document) : Option Document :=
  match d.lookup key with
  | none => some (d.put key (.tables [] []))
  | some (.tables latest earlier) =>
    some (d.put key (.tables [] (.table .header latest :: earlier)))
  | some _ => none

end Document

/-- A key with its blanks, as far as its parts are not too many. -/
def key (cs : List Char) : Option (List String × List Char) :=
  match keyPath cs.length cs with
  | some (path, rest) => if path.length < nestingLimit then some (path, rest) else none
  | none => none

mutual

/-- A value. -/
def value : (fuel : Nat) → (depth : Nat) → List Char → Option (Value × List Char)
  | 0, _, _ => none
  | fuel + 1, depth, cs =>
    match cs with
    | '[' :: rest =>
      if depth + 1 < nestingLimit then
        (items fuel (depth + 1) rest).map fun (vs, rest) => (.array vs, rest)
      else none
    | '{' :: rest =>
      if depth + 1 < nestingLimit then
        match skipSpace rest with
        | '}' :: rest => some (.table [], rest)
        | rest =>
          (pairs fuel (depth + 1) [] rest).map fun (d, rest) => (.table (Node.toEntries d), rest)
      else none
    | '"' :: _ | '\'' :: _ =>
      (string cs).map fun (s, rest) => (.text (String.ofList s), rest)
    | cs => scalar cs

/-- The values of an array after its bracket or after a comma. -/
def items : (fuel : Nat) → (depth : Nat) → List Char → Option (List Value × List Char)
  | 0, _, _ => none
  | fuel + 1, depth, cs =>
    match skipLines cs.length cs with
    | ']' :: rest => some ([], rest)
    | cs => do
      let (v, rest) ← value fuel depth cs
      match skipLines rest.length rest with
      | ',' :: rest =>
        let (vs, rest) ← items fuel depth rest
        return (v :: vs, rest)
      | ']' :: rest => return ([v], rest)
      | _ => none

/-- The entries of a table in braces, after those that were read. -/
def pairs : (fuel : Nat) → (depth : Nat) → Document → List Char → Option (Document × List Char)
  | 0, _, _, _ => none
  | fuel + 1, depth, d, cs => do
    let (path, rest) ← key cs
    match rest with
    | '=' :: rest =>
      let (v, rest) ← value fuel depth (skipSpace rest)
      let d ← d.insertAt path v
      match skipSpace rest with
      | ',' :: rest => pairs fuel depth d rest
      | '}' :: rest => return (d, rest)
      | _ => none
    | _ => none

end

/-- The tree with the entry of a line, in the table of the last header, and what is left after the
line. -/
def entryLine (header : List String) (d : Document) (cs : List Char) :
    Option (Document × List Char) := do
  let (path, rest) ← key cs
  match rest with
  | '=' :: rest =>
    let (v, rest) ← value (2 * rest.length + 2) 0 (skipSpace rest)
    let d ← d.change (·.insertAt path v) header
    return (d, ← afterLine? rest)
  | _ => none

/-- The tree after a header, the path of the header, and what is left after its line; given how
the table is opened and the bracket that ends the header. -/
def headerLine (openAt : String → Document → Option Document) (closing : List Char) (d : Document)
    (cs : List Char) : Option ((Document × List String) × List Char) := do
  let (path, rest) ← key cs
  let last ← path.getLast?
  let d ← d.change (openAt last) path.dropLast
  if closing.isPrefixOf rest then
    return ((d, path), ← afterLine? (rest.drop closing.length))
  else none

/-- The tree that lines build, given the header before them. -/
def lines : (fuel : Nat) → List String → Document → List Char → Option Document
  | 0, _, _, _ => none
  | fuel + 1, header, d, cs =>
    match skipSpace cs with
    | [] => some d
    | '[' :: '[' :: rest => do
      let ((d, header), rest) ← headerLine Document.openElement [']', ']'] d rest
      lines fuel header d rest
    | '[' :: rest => do
      let ((d, header), rest) ← headerLine Document.openTable [']'] d rest
      lines fuel header d rest
    | c :: rest =>
      if c == '#' || (afterBreak? (c :: rest)).isSome then do
        lines fuel header d (← afterLine? (c :: rest))
      else do
        let (d, rest) ← entryLine header d (c :: rest)
        lines fuel header d rest

/-- The text without a mark of its byte order. -/
def withoutMark : List Char → List Char
  | '\uFEFF' :: rest => rest
  | cs => cs

/-- The entries of a file. -/
def parse? (s : String) : Option Entries :=
  let cs := withoutMark s.toList
  (lines (cs.length + 1) [] [] cs).map Node.toEntries

end ImageBuild.Toml
