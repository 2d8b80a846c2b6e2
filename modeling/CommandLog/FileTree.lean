import CommandLog.Bytes
import CommandLog.IoError

/-! # A tree of files

Directories, regular files and two special files under one root, with the operations that programs
perform on them by path. A regular file is known by a number, so that it stays writable after its
name is removed, and every open file keeps its own position.
-/

namespace CommandLog

/-- A file without stored bytes: one that is always full, one that forgets what it is given. -/
inductive SpecialFile where
  | full
  | null
  deriving DecidableEq, Repr

inductive FileTree.Entry where
  | directory
  | file (number : Nat)
  | special (kind : SpecialFile)
  deriving DecidableEq, Repr

/-- A file system. Names are lists of components from the root on; the root itself has no entry. -/
structure FileTree where
  entries : List (List String × FileTree.Entry)
  /-- The bytes of the regular files, by number. -/
  contents : List Bytes
  /-- Where paths that do not start at the root begin. -/
  here : List String
  deriving DecidableEq, Repr

structure OpenFile where
  entry : FileTree.Entry
  position : Nat
  deriving DecidableEq, Repr

structure Path where
  text : String
  deriving DecidableEq, Repr

namespace Path

/-- The longest path and the longest name that the system takes, in bytes. -/
def longestPath : Nat := 4095

def longestName : Nat := 255

def isAbsolute (p : Path) : Bool :=
  p.text.toList.head? == some '/'

def endsWithSlash (p : Path) : Bool :=
  p.text.toList.getLast? == some '/'

def under (p dir : Path) : Path :=
  if p.isAbsolute then p
  else if dir.text.isEmpty || dir.endsWithSlash then ⟨dir.text ++ p.text⟩
  else ⟨dir.text ++ "/" ++ p.text⟩

def pieces : List Char → List (List Char)
  | [] => [[]]
  | c :: cs =>
    if c = '/' then [] :: pieces cs
    else match pieces cs with
      | [] => [[c]]
      | p :: ps => (c :: p) :: ps

/-- The components between slashes; empty ones do not count. -/
def components (p : Path) : List String :=
  ((pieces p.text.toList).filter (· ≠ [])).map String.ofList

/-- The path without its last component. Dots that stand for the directory itself are left out,
except at the start of a relative path. -/
def parent? (p : Path) : Option Path :=
  let parts := match p.components with
    | "." :: rest => (if p.isAbsolute then [] else ["."]) ++ rest.filter (· ≠ ".")
    | parts => parts.filter (· ≠ ".")
  if parts = [] then none
  else
    let front := "/".intercalate parts.dropLast
    some ⟨if p.isAbsolute then "/" ++ front else front⟩

/-- Why a text can be no path at all. -/
def fault? (p : Path) : Option IoError :=
  if p.text.toList.contains '\x00' then
    some (.described "file name contained an unexpected NUL byte")
  else if p.text.isEmpty then some (.os Errno.noSuchEntry)
  else if longestPath < p.text.utf8ByteSize then some (.os Errno.nameTooLong)
  else none

end Path

namespace FileTree

/-- A tree with the usual directories, which are empty but for the special files. -/
def standard : FileTree :=
  { entries :=
      [(["dev", "full"], .special .full), (["dev", "null"], .special .null)] ++
        ["dev", "etc", "home", "proc", "root", "sys", "tmp", "usr", "var"].map
          fun name => ([name], .directory)
    contents := []
    here := [] }

def lookup (t : FileTree) (name : List String) : Option Entry :=
  if name = [] then some .directory else t.entries.lookup name

def add (t : FileTree) (name : List String) (e : Entry) : FileTree :=
  { t with entries := (name, e) :: t.entries }

def unlink (t : FileTree) (name : List String) : FileTree :=
  { t with entries := t.entries.filter (·.1 ≠ name) }

def tooLong (name : String) : Bool :=
  Path.longestName < name.utf8ByteSize

/-- Follows components from a directory on, all of which have to be directories. -/
def walk (t : FileTree) : List String → List String → Except IoError (List String)
  | dir, [] => .ok dir
  | dir, part :: rest =>
    if part = "." then t.walk dir rest
    else if part = ".." then t.walk dir.dropLast rest
    else if tooLong part then .error (.os Errno.nameTooLong)
    else match t.lookup (dir ++ [part]) with
      | some .directory => t.walk (dir ++ [part]) rest
      | some _ => .error (.os Errno.notDirectory)
      | none => .error (.os Errno.noSuchEntry)

/-- Where a path leads: to a directory that needs no name, or to a name in a directory. -/
inductive Goal where
  | directory
  | name (full : List String)
  deriving DecidableEq, Repr

def goal (t : FileTree) (p : Path) : Except IoError Goal :=
  match p.fault? with
  | some e => .error e
  | none =>
    let start := if p.isAbsolute then [] else t.here
    match p.components.getLast? with
    | none => .ok .directory
    | some last =>
      match t.walk start p.components.dropLast with
      | .error e => .error e
      | .ok dir =>
        if last = "." ∨ last = ".." then .ok .directory
        else if tooLong last then .error (.os Errno.nameTooLong)
        else .ok (.name (dir ++ [last]))

def entry (t : FileTree) (p : Path) : Except IoError Entry :=
  match t.goal p with
  | .error e => .error e
  | .ok .directory => .ok .directory
  | .ok (.name full) =>
    match t.lookup full with
    | none => .error (.os Errno.noSuchEntry)
    | some .directory => .ok .directory
    | some e => if p.endsWithSlash then .error (.os Errno.notDirectory) else .ok e

def isDirectory (t : FileTree) (p : Path) : Bool :=
  match t.entry p with
  | .ok .directory => true
  | _ => false

def makeDirectory (t : FileTree) (p : Path) : Except IoError FileTree :=
  match t.goal p with
  | .error e => .error e
  | .ok .directory => .error (.os Errno.alreadyExists)
  | .ok (.name full) =>
    match t.lookup full with
    | some _ => .error (.os Errno.alreadyExists)
    | none => .ok (t.add full .directory)

/-- Makes a directory unless it is there, after those above it, in at most `depth` levels. What was
made on the way stays if a later step fails. -/
def makeDirectoriesWithin : Nat → FileTree → Path → Except IoError Unit × FileTree
  | 0, t, _ => (.error (.described "failed to create whole tree"), t)
  | depth + 1, t, p =>
    if p.text.isEmpty then (.ok (), t)
    else match t.makeDirectory p with
      | .ok t => (.ok (), t)
      | .error e =>
        if e = .os Errno.noSuchEntry then
          match p.parent? with
          | none => (.error (.described "failed to create whole tree"), t)
          | some above =>
            match makeDirectoriesWithin depth t above with
            | (.error e, t) => (.error e, t)
            | (.ok (), t) =>
              match t.makeDirectory p with
              | .ok t => (.ok (), t)
              | .error e => (if t.isDirectory p then .ok () else .error e, t)
        else (if t.isDirectory p then .ok () else .error e, t)

def makeDirectories (t : FileTree) (p : Path) : Except IoError Unit × FileTree :=
  makeDirectoriesWithin (p.components.length + 2) t p

/-- Opens a file for writing from its start, and empties it; a missing file is made. -/
def create (t : FileTree) (p : Path) : Except IoError (OpenFile × FileTree) :=
  match t.goal p with
  | .error e => .error e
  | .ok .directory => .error (.os Errno.isDirectory)
  | .ok (.name full) =>
    if p.endsWithSlash then .error (.os Errno.isDirectory)
    else match t.lookup full with
      | some .directory => .error (.os Errno.isDirectory)
      | some (.file n) => .ok (⟨.file n, 0⟩, { t with contents := t.contents.set n [] })
      | some (.special kind) => .ok (⟨.special kind, 0⟩, t)
      | none =>
        let n := t.contents.length
        .ok (⟨.file n, 0⟩, { t.add full (.file n) with contents := t.contents ++ [[]] })

/-- Puts bytes into a file at a position; a gap before them is filled with zeros. -/
def overwrite (old : Bytes) (position : Nat) (bs : Bytes) : Bytes :=
  if bs = [] then old
  else old.take position ++ List.replicate (position - old.length) 0 ++ bs
    ++ old.drop (position + bs.length)

def write (t : FileTree) (f : OpenFile) (bs : Bytes) : Except IoError (OpenFile × FileTree) :=
  match f.entry with
  | .file n =>
    .ok ({ f with position := f.position + bs.length },
      { t with contents := t.contents.modify n fun old => overwrite old f.position bs })
  | .special .full => if bs = [] then .ok (f, t) else .error (.os Errno.noSpace)
  | .special .null => .ok (f, t)
  | .directory => .error (.os Errno.isDirectory)

/-- Waits until the bytes of an open file are safe, which special files do not offer. -/
def sync (f : OpenFile) : Except IoError Unit :=
  match f.entry with
  | .file _ => .ok ()
  | _ => .error (.os Errno.invalidArgument)

def remove (t : FileTree) (p : Path) : Except IoError FileTree :=
  match t.goal p with
  | .error e => .error e
  | .ok .directory => .error (.os Errno.isDirectory)
  | .ok (.name full) =>
    match t.lookup full with
    | none => .error (.os Errno.noSuchEntry)
    | some .directory => .error (.os Errno.isDirectory)
    | some _ =>
      if p.endsWithSlash then .error (.os Errno.notDirectory) else .ok (t.unlink full)

/-- The bytes of a file. Those of a full one have no end. -/
def read (t : FileTree) (p : Path) : Except IoError Bytes :=
  match t.entry p with
  | .error e => .error e
  | .ok .directory => .error (.os Errno.isDirectory)
  | .ok (.file n) => .ok (t.contents.getD n [])
  | .ok (.special .full) => .error (.kind .outOfMemory)
  | .ok (.special .null) => .ok []

def writeFile (t : FileTree) (p : Path) (bs : Bytes) : Except IoError FileTree :=
  match t.create p with
  | .error e => .error e
  | .ok (f, t) => (t.write f bs).map (·.2)

end FileTree

end CommandLog
