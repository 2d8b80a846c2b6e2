import CommandLog.Decimal
import CommandLog.Record

/-! # Seek directives

A line `AESDCHAR_IOCSEEKTO:<index>,<offset>` asks for the content from a place on instead of being
stored. `Directive.parse?` accepts exactly the lines of this form whose numbers fit in 32 bits, and
`Directive.line` writes them. Whether the place exists is a question to the store.
-/

namespace CommandLog

/-- A request to read from a place on. -/
structure Directive where
  index : UInt32
  offset : UInt32
  deriving DecidableEq, Repr

namespace Directive

def header : Bytes :=
  Bytes.ofAscii "AESDCHAR_IOCSEEKTO:"

def comma : UInt8 := 44

/-- The fewest bytes that can follow the header: two digits and a comma, or their like. -/
def leastTail : Nat := 3

def body (d : Directive) : Bytes :=
  header ++ Decimal.bytes d.index.toNat ++ comma :: Decimal.bytes d.offset.toNat

def line (d : Directive) : Bytes :=
  d.body ++ [newline]

/-- The number in a field that holds ASCII digits only, if it fits in 32 bits. -/
def field? (bs : Bytes) : Option UInt32 :=
  match Decimal.ofBytes? bs with
  | some n => if n < UInt32.size then some (UInt32.ofNat n) else none
  | none => none

/-- Reads two fields parted by one comma. -/
def ofFields? (bs : Bytes) : Option Directive :=
  match bs.dropWhile (· != comma) with
  | _ :: second => do
    let index ← field? (bs.takeWhile (· != comma))
    let offset ← field? second
    some ⟨index, offset⟩
  | [] => none

def parse? (record : Bytes) : Option Directive :=
  if record.length < header.length + leastTail then none
  else if record.getLast? = some newline then
    (header.isPrefixOf? record.dropLast).bind ofFields?
  else none

end Directive

inductive Command where
  | seek (directive : Directive)
  | append (record : Record)
  deriving DecidableEq, Repr

/-- Every record that is no directive is to be stored as it is. -/
def Command.ofRecord (r : Record) : Command :=
  match Directive.parse? r.bytes with
  | some d => .seek d
  | none => .append r

end CommandLog
