/-! # Scanning characters

A scanner takes something off the front of a text, or fails. Loops are bounded by the length of the
text, since every round takes at least one character.
-/

namespace CommandLog.Toml

/-- Takes a value off the front of a text. -/
abbrev Scanner (α : Type) := List Char → Option (α × List Char)

namespace Scan

def char (c : Char) : Scanner Unit
  | x :: rest => if x = c then some ((), rest) else none
  | [] => none

def text (s : List Char) (cs : List Char) : Option (List Char) :=
  s.isPrefixOf? cs

/-- Takes values parted by separators, in at most `fuel` rounds; a separator without a value after
it is left. -/
def separatedWithin (p : Scanner α) (sep : Char) : Nat → Scanner (List α)
  | 0, cs => some ([], cs)
  | fuel + 1, cs =>
    match p cs with
    | none => some ([], cs)
    | some (a, rest) =>
      match char sep rest with
      | none => some ([a], rest)
      | some ((), next) =>
        match separatedWithin p sep fuel next with
        | some (b :: as, rest) => some (a :: b :: as, rest)
        | _ => some ([a], rest)

def separated (p : Scanner α) (sep : Char) (cs : List Char) : List α × List Char :=
  ((separatedWithin p sep (cs.length + 1)) cs).getD ([], cs)

def isBlank (c : Char) : Bool :=
  c = ' ' || c = '\t'

def blanks (cs : List Char) : List Char :=
  cs.dropWhile isBlank

/-- Takes a line end, with or without a carriage return. -/
def newline : List Char → Option (List Char)
  | '\n' :: rest => some rest
  | '\r' :: '\n' :: rest => some rest
  | _ => none

/-- A character that may stand in a comment: none of the control characters but the tab. -/
def isPlain (c : Char) : Bool :=
  c = '\t' || (' ' ≤ c && c ≠ '\x7f')

def comment : List Char → List Char
  | '#' :: rest => rest.dropWhile isPlain
  | cs => cs

/-- Leaves out blanks and a comment up to the end of the line, which has to follow. -/
def lineEnd (cs : List Char) : Option (List Char) :=
  match comment (blanks cs) with
  | [] => some []
  | rest => newline rest

def layoutWithin : Nat → List Char → List Char
  | 0, cs => cs
  | fuel + 1, cs =>
    match cs with
    | '#' :: rest => layoutWithin fuel (rest.dropWhile isPlain)
    | c :: rest =>
      if isBlank c then layoutWithin fuel rest
      else match newline cs with
        | some rest => layoutWithin fuel rest
        | none => cs
    | [] => []

def layout (cs : List Char) : List Char :=
  layoutWithin cs.length cs

end Scan

end CommandLog.Toml
