import CommandLog.Toml.Scan

/-! # Strings and keys

Basic strings stand in quotation marks and know escapes; literal strings stand in apostrophes.
Either kind may be tripled to span lines, in which case one or two of its marks may stand in the
text and up to two more directly before the closing three.
-/

namespace CommandLog.Toml

namespace Quoted

def isBasic (c : Char) : Bool :=
  Scan.isPlain c && c ≠ '"' && c ≠ '\\'

def isLiteral (c : Char) : Bool :=
  Scan.isPlain c && c ≠ '\''

def hexValue? (c : Char) : Option Nat :=
  if '0' ≤ c ∧ c ≤ '9' then some (c.toNat - 48)
  else if 'a' ≤ c ∧ c ≤ 'f' then some (c.toNat - 87)
  else if 'A' ≤ c ∧ c ≤ 'F' then some (c.toNat - 55)
  else none

/-- A character given by a fixed number of hexadecimal digits. -/
def codePoint (digits : Nat) : Scanner Char := fun cs => do
  let front := cs.take digits
  if front.length < digits then none
  let ds ← front.mapM hexValue?
  let n := ds.foldl (fun n d => 16 * n + d) 0
  if n.isValidChar then some (Char.ofNat n, cs.drop digits) else none

/-- The character that an escape stands for; the backslash is already taken. -/
def escape : Scanner Char
  | 'b' :: rest => some ('\x08', rest)
  | 't' :: rest => some ('\t', rest)
  | 'n' :: rest => some ('\n', rest)
  | 'f' :: rest => some ('\x0c', rest)
  | 'r' :: rest => some ('\r', rest)
  | '"' :: rest => some ('"', rest)
  | '\\' :: rest => some ('\\', rest)
  | 'u' :: rest => codePoint 4 rest
  | 'U' :: rest => codePoint 8 rest
  | _ => none

/-- The rest of a basic string on one line, up to its closing mark, in at most `fuel` characters. -/
def basicWithin : Nat → Scanner (List Char)
  | 0, _ => none
  | fuel + 1, cs =>
    match cs with
    | '"' :: rest => some ([], rest)
    | '\\' :: rest => do
      let (c, rest) ← escape rest
      let (cs, rest) ← basicWithin fuel rest
      some (c :: cs, rest)
    | c :: rest =>
      if isBasic c then (basicWithin fuel rest).map fun (cs, rest) => (c :: cs, rest) else none
    | [] => none

def basic : Scanner (List Char)
  | '"' :: rest => basicWithin rest.length rest
  | _ => none

def literal : Scanner (List Char)
  | '\'' :: rest =>
    match rest.span isLiteral with
    | (cs, '\'' :: rest) => some (cs, rest)
    | _ => none
  | _ => none

/-- The end of a tripled string, where a run of marks begins: the marks that belong to the text and
what follows, with a flag that tells whether the string ends there. -/
def marks (mark : Char) (cs : List Char) : Option (List Char × Bool × List Char) :=
  let n := (cs.takeWhile (· = mark)).length
  if n < 3 then
    if n < cs.length then some (List.replicate n mark, false, cs.drop n) else none
  else
    let extra := min (n - 3) 2
    some (List.replicate extra mark, true, cs.drop (extra + 3))

/-- Leaves out the rest of a line that ends in a backslash and all blanks and line ends after it. -/
def continuation (cs : List Char) : Option (List Char) :=
  (Scan.newline (Scan.blanks cs)).map blankLines
where
  blankLines (cs : List Char) : List Char := go cs.length cs
  go : Nat → List Char → List Char
    | 0, cs => cs
    | fuel + 1, cs =>
      match cs with
      | c :: rest =>
        if Scan.isBlank c then go fuel rest
        else match Scan.newline cs with
          | some rest => go fuel rest
          | none => cs
      | [] => []

def tripledWithin (mark : Char) (escapes : Bool) : Nat → Scanner (List Char)
  | 0, _ => none
  | fuel + 1, cs =>
    match cs with
    | [] => none
    | c :: rest =>
      if c = mark then
        match marks mark cs with
        | none => none
        | some (inner, true, rest) => some (inner, rest)
        | some (inner, false, rest) =>
          (tripledWithin mark escapes fuel rest).map fun (cs, rest) => (inner ++ cs, rest)
      else if c = '\\' && escapes then
        match continuation rest with
        | some rest => tripledWithin mark escapes fuel rest
        | none => do
          let (c, rest) ← escape rest
          let (cs, rest) ← tripledWithin mark escapes fuel rest
          some (c :: cs, rest)
      else match Scan.newline cs with
        | some rest =>
          (tripledWithin mark escapes fuel rest).map fun (cs, rest) => ('\n' :: cs, rest)
        | none =>
          if Scan.isPlain c then
            (tripledWithin mark escapes fuel rest).map fun (cs, rest) => (c :: cs, rest)
          else none

/-- A tripled string. A line end right after the opening marks does not count. -/
def tripled (mark : Char) (escapes : Bool) : Scanner (List Char) := fun cs => do
  let rest ← Scan.text [mark, mark, mark] cs
  let rest := (Scan.newline rest).getD rest
  tripledWithin mark escapes (rest.length + 1) rest

def string : Scanner String := fun cs =>
  (tripled '"' true cs <|> basic cs <|> tripled '\'' false cs <|> literal cs).map
    fun (cs, rest) => (String.ofList cs, rest)

def isBare (c : Char) : Bool :=
  c.isAlphanum || c = '-' || c = '_'

def keyPart : Scanner String := fun cs => do
  let cs := Scan.blanks cs
  let (key, rest) ← match cs with
    | '"' :: _ => basic cs
    | '\'' :: _ => literal cs
    | _ =>
      let (key, rest) := cs.span isBare
      if key = [] then none else some (key, rest)
  some (String.ofList key, Scan.blanks rest)

def keyPartLimit : Nat := 80

/-- A key of parts joined by dots: all parts but the last, and the last. -/
def key : Scanner (List String × String) := fun cs =>
  let (parts, rest) := Scan.separated keyPart '.' cs
  match parts.getLast? with
  | some last =>
    if parts.length < keyPartLimit then some ((parts.dropLast, last), rest) else none
  | none => none

end Quoted

end CommandLog.Toml
