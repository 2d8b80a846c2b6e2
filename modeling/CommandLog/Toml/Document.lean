import CommandLog.Toml.Node
import CommandLog.Toml.Number

/-! # Reading documents

A document is a list of lines: comments, key and value, and headers that open a table or add a table
to an array. `Document.parse?` reads a text and puts the tables together.
-/

namespace CommandLog.Toml

/-- How deep arrays and inline tables may be nested. -/
def greatestDepth : Nat := 79

def pair (value : Scanner Node) : Scanner ((List String × String) × Node) := fun cs => do
  let (key, rest) ← Quoted.key cs
  let ((), rest) ← Scan.char '=' rest
  let (node, rest) ← value (Scan.blanks rest)
  some ((key, node), Scan.blanks rest)

def arrayRest (value : Scanner Node) : Scanner Node := fun cs =>
  let item : Scanner Node := fun cs =>
    (value (Scan.layout cs)).map fun (node, rest) => (node, Scan.layout rest)
  let (items, rest) := Scan.separated item ',' cs
  let rest := if items.isEmpty then rest else ((Scan.char ',' rest).map (·.2)).getD rest
  (Scan.char ']' (Scan.layout rest)).map fun ((), rest) => (.array items, rest)

def inlineRest (value : Scanner Node) : Scanner Node := fun cs => do
  let (pairs, rest) := Scan.separated (pair value) ',' cs
  let entries ← pairs.foldlM (fun es ((path, key), node) => Entries.addDotted es path key node) []
  let ((), rest) ← Scan.char '\x7d' (Scan.blanks rest)
  some (.inline entries, rest)

def scalar (cs : List Char) : Option (Node × List Char) :=
  let string := (Quoted.string cs).map fun (s, rest) => (Scalar.string s, rest)
  let yes := (Scan.text ['t', 'r', 'u', 'e'] cs).map fun rest => (Scalar.boolean true, rest)
  let no := (Scan.text ['f', 'a', 'l', 's', 'e'] cs).map fun rest => (Scalar.boolean false, rest)
  let date := (Number.dateTime cs).map fun (s, rest) => (Scalar.dateTime s, rest)
  let float := (Number.float cs).map fun (s, rest) => (Scalar.float s, rest)
  let integer := (Number.integer cs).map fun (n, rest) => (Scalar.integer n, rest)
  (string <|> yes <|> no <|> date <|> float <|> integer).map fun (s, rest) => (.scalar s, rest)

/-- A value whose arrays and inline tables are nested at most so deep. -/
def value : Nat → Scanner Node
  | depth + 1, '[' :: rest => arrayRest (value depth) rest
  | depth + 1, '\x7b' :: rest => inlineRest (value depth) rest
  | _, cs => scalar cs

inductive Line where
  | blank
  | pair (path : List String) (key : String) (node : Node)
  | header (path : List String) (key : String)
  | element (path : List String) (key : String)

def header (opening closing : List Char) : Scanner (List String × String) := fun cs => do
  let rest ← Scan.text opening cs
  let (key, rest) ← Quoted.key rest
  let rest ← Scan.text closing rest
  some (key, ← Scan.lineEnd rest)

def line : Scanner Line := fun cs =>
  match cs with
  | '#' :: _ => (Scan.lineEnd cs).map fun rest => (.blank, rest)
  | '[' :: '[' :: _ =>
    (header ['[', '['] [']', ']'] cs).map fun ((path, key), rest) => (.element path key, rest)
  | '[' :: _ => (header ['['] [']'] cs).map fun ((path, key), rest) => (.header path key, rest)
  | '\n' :: _ | '\r' :: _ => (Scan.newline cs).map fun rest => (.blank, rest)
  | _ => do
    let (((path, key), node), rest) ← pair (value greatestDepth) cs
    some (.pair path key node, ← Scan.lineEnd rest)

def linesWithin : Nat → List Char → Option (List Line)
  | 0, cs => if cs = [] then some [] else none
  | fuel + 1, cs =>
    match Scan.blanks cs with
    | [] => some []
    | cs => do
      let (l, rest) ← line cs
      let ls ← linesWithin fuel rest
      some (l :: ls)

/-- A document under construction: what is complete, and the table that lines are added to. -/
structure Draft where
  root : Entries := []
  /-- The path and name of the open table; none for the top of the document. -/
  place : Option (List String × String) := none
  /-- Whether the open table is an element of an array. -/
  isElement : Bool := false
  current : Entries := []

namespace Draft

def close (d : Draft) : Option Entries :=
  match d.place with
  | none => some d.current
  | some (path, key) =>
    (Entries.descend .passed (fun _ es =>
      if d.isElement then
        match es.lookup key with
        | some (.tables elements) => some ((), es.put key (.tables (d.current :: elements)))
        | _ => none
      else some ((), es.put key (.table .header d.current))) path .header d.root).map (·.2)

/-- Opens a table by its header. A table that was only passed on the way to others keeps what it
has; any other of that name is an error. -/
def openTable (d : Draft) (path : List String) (key : String) : Option Draft := do
  let root ← d.close
  let (kept, root) ← Entries.descend .passed (fun _ es =>
    match es.lookup key with
    | none => some ([], es)
    | some (.table .passed below) => some (below, es.remove key)
    | some _ => none) path .header root
  some { root := root, place := some (path, key), isElement := false, current := kept }

def openElement (d : Draft) (path : List String) (key : String) : Option Draft := do
  let root ← d.close
  let (_, root) ← Entries.descend .passed (fun _ es =>
    match es.lookup key with
    | none => some ((), es.put key (.tables []))
    | some (.tables _) => some ((), es)
    | some _ => none) path .header root
  some { root := root, place := some (path, key), isElement := true, current := [] }

def add (d : Draft) : Line → Option Draft
  | .blank => some d
  | .pair path key node =>
    (d.current.addDotted path key node).map fun es => { d with current := es }
  | .header path key => d.openTable path key
  | .element path key => d.openElement path key

end Draft

namespace Document

/-- Reads a document; a byte order mark at the start does not count. -/
def parse? (text : String) : Option Entries := do
  let cs := match text.toList with
    | '\ufeff' :: rest => rest
    | cs => cs
  let lines ← linesWithin (cs.length + 1) cs
  let draft ← lines.foldlM Draft.add {}
  draft.close

end Document

end CommandLog.Toml
