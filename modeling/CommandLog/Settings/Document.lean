import CommandLog.FileTree
import CommandLog.Settings.Basic
import CommandLog.Toml.Document

/-! # Settings in documents

A document gives some of the settings and leaves the rest at their defaults. Names that mean nothing
are passed over; a value of the wrong type makes the whole document unusable.
-/

namespace CommandLog

open Toml (Node Entries)

namespace Toml.Node

def natural? : Node → Option Nat
  | .scalar (.integer n) => if 0 ≤ n then some n.toNat else none
  | _ => none

def string? : Node → Option String
  | .scalar (.string s) => some s
  | _ => none

def boolean? : Node → Option Bool
  | .scalar (.boolean b) => some b
  | _ => none

end Toml.Node

namespace Toml.Entries

/-- The value under a name, or the default if the name does not occur. -/
def field (es : Entries) (key : String) (read? : Node → Option α) (default : α) : Option α :=
  match es.lookup key with
  | some n => read? n
  | none => some default

def item (items : List Node) (i : Nat) (read? : Node → Option α) (default : α) : Option α :=
  match items[i]? with
  | some n => read? n
  | none => some default

end Toml.Entries

namespace Reporting

def ofEntries? (es : Entries) : Option Reporting := do
  let base : Reporting := {}
  let level ← es.field "level" Node.string? base.level
  let json ← es.field "json" Node.boolean? base.json
  let ansi ← es.field "ansi" Node.boolean? base.ansi
  some ⟨level, json, ansi⟩

/-- A list gives level, json and ansi by place; items after them mean nothing. -/
def ofItems? (items : List Node) : Option Reporting := do
  let base : Reporting := {}
  let level ← Entries.item items 0 Node.string? base.level
  let json ← Entries.item items 1 Node.boolean? base.json
  let ansi ← Entries.item items 2 Node.boolean? base.ansi
  some ⟨level, json, ansi⟩

/-- Reads a table or a list. A date counts as a table without a name that means anything. -/
def ofNode? : Node → Option Reporting
  | .table _ es => ofEntries? es
  | .inline es => ofEntries? es
  | .array items => ofItems? items
  | .scalar (.dateTime _) => some {}
  | _ => none

end Reporting

namespace Settings

def ofEntries? (es : Entries) : Option Settings := do
  let base : Settings := {}
  let word (key : String) (default : UInt64) : Option UInt64 :=
    es.field key (fun n => n.natural?.map UInt64.ofNat) default
  let bindAddress ← es.field "bind_addr" Node.string? base.bindAddress
  let capacity ← es.field "capacity" Node.natural? base.capacity
  let timestampSeconds ← es.field "timestamp_interval_secs" Node.natural? base.timestampSeconds
  let backingFile ← es.field "backing_file" (fun n => n.string?.map some) base.backingFile
  let lockTimeout ← word "lock_timeout_ms" base.lockTimeoutMilliseconds
  let shutdownGrace ← word "shutdown_grace_ms" base.shutdownGraceMilliseconds
  let initialBufferSize ← es.field "initial_buffer_size" Node.natural? base.initialBufferSize
  let recordLimit ← es.field "max_record_len" (fun n => n.natural?.map some) base.recordLimit
  let reporting ← es.field "log" Reporting.ofNode? base.reporting
  some {
    bindAddress := bindAddress
    capacity := capacity
    timestampSeconds := timestampSeconds
    backingFile := backingFile
    lockTimeoutMilliseconds := lockTimeout
    shutdownGraceMilliseconds := shutdownGrace
    initialBufferSize := initialBufferSize
    recordLimit := recordLimit
    reporting := reporting }

def ofText (text : String) : Except ServiceError Settings :=
  match (Toml.Document.parse? text).bind ofEntries? with
  | some s => .ok s
  | none => .error (.settings .malformed)

def load (t : FileTree) (path : Path) : Except ServiceError Settings :=
  match t.read path with
  | .error e => .error (.settings (.unreadable path.text e))
  | .ok bs =>
    match String.fromUTF8? ⟨bs.toArray⟩ with
    | some text => ofText text
    | none =>
      .error (.settings
        (.unreadable path.text (.described "stream did not contain valid UTF-8")))

end Settings

end CommandLog
