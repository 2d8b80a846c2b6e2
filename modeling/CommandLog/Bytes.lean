/-! # Byte strings

Records travel as byte strings cut at newlines. `Bytes.splitLines` separates the complete lines of
a byte string from the unfinished rest, and `Bytes.firstLine?` cuts off the first line alone.
-/

namespace CommandLog

abbrev Bytes := List UInt8

/-- The byte that ends every record. -/
def newline : UInt8 := 10

namespace Bytes

/-- One byte for each character below U+0100. -/
def ofChars (cs : List Char) : Bytes :=
  cs.map fun c => UInt8.ofNat c.toNat

def ofAscii (s : String) : Bytes :=
  ofChars s.toList

/-- The first line with its newline, and the bytes after it. -/
def firstLine? : Bytes → Option (Bytes × Bytes)
  | [] => none
  | b :: rest =>
    if b = newline then some ([b], rest)
    else (firstLine? rest).map fun (line, after) => (b :: line, after)

/-- The complete lines in order, each with its newline, and the unfinished rest. -/
def splitLines : Bytes → List Bytes × Bytes
  | [] => ([], [])
  | b :: bs =>
    let (ls, rest) := splitLines bs
    if b = newline then ([b] :: ls, rest)
    else match ls with
      | [] => ([], b :: rest)
      | l :: ls => ((b :: l) :: ls, rest)

def lines (s : Bytes) : List Bytes :=
  s.splitLines.1

/-- The bytes after the last newline. -/
def unfinished (s : Bytes) : Bytes :=
  s.splitLines.2

end Bytes

end CommandLog
