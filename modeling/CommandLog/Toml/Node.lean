/-! # TOML documents

A document is a table of named nodes. Tables that a document opens by header or by dotted key stay
open for a while and remember how they came about; arrays and inline tables are closed values.
-/

namespace CommandLog.Toml

/-- A value without parts. Numbers with a fraction and dates keep their written form. -/
inductive Scalar where
  | string (s : String)
  | integer (n : Int)
  | float (literal : String)
  | boolean (b : Bool)
  | dateTime (literal : String)
  deriving DecidableEq, Repr

/-- How a table came about: by its own header, on the way to another table's header, or on the way
to the last part of a dotted key. -/
inductive Origin where
  | header
  | passed
  | dotted
  deriving DecidableEq, Repr

inductive Node where
  | scalar (s : Scalar)
  | array (items : List Node)
  | inline (entries : List (String × Node))
  | table (origin : Origin) (entries : List (String × Node))
  /-- An array whose elements are tables with headers of their own, the last one first. -/
  | tables (elements : List (List (String × Node)))
  deriving Repr

abbrev Entries := List (String × Node)

namespace Entries

def put (es : Entries) (key : String) (n : Node) : Entries :=
  if (es.lookup key).isSome then es.map fun e => if e.1 = key then (key, n) else e
  else es ++ [(key, n)]

def remove (es : Entries) (key : String) : Entries :=
  es.filter (·.1 ≠ key)

/-- Changes the entries at the end of a path and finds something out about them. Missing tables on
the way are made with the given origin. A dotted key must not enter a table that has a header, and
no path enters a value. -/
def descend (made : Origin) (f : Origin → Entries → Option (α × Entries)) :
    List String → Origin → Entries → Option (α × Entries)
  | [], origin, es => f origin es
  | key :: path, _, es =>
    match es.lookup key with
    | none =>
      (descend made f path made []).map fun (a, below) => (a, es.put key (.table made below))
    | some (.table origin below) =>
      if made = .dotted ∧ origin = .header then none
      else
        (descend made f path origin below).map fun (a, below) =>
          (a, es.put key (.table origin below))
    | some (.tables (last :: before)) =>
      (descend made f path .header last).map fun (a, last) =>
        (a, es.put key (.tables (last :: before)))
    | some _ => none

/-- Adds a value under a dotted key. A table on the way has to be made by dotted keys only, and the
last name has to be new. -/
def addDotted (es : Entries) (path : List String) (key : String) (n : Node) : Option Entries :=
  (descend .dotted (fun origin below =>
    if origin = .dotted ↔ path = [] then none
    else if (below.lookup key).isSome then none
    else some ((), below.put key n)) path .header es).map (·.2)

end Entries

end CommandLog.Toml
