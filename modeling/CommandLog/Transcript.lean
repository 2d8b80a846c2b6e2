import CommandLog.FileTree
import CommandLog.Record
import CommandLog.ServiceError

/-! # Transcripts

A transcript is a file that receives the records of the log in the order in which they enter it,
those that have left the log since included. It starts empty, is never read back, and is removed
when the service ends in good order.
-/

namespace CommandLog

structure Transcript where
  path : Path
  file : OpenFile
  deriving DecidableEq, Repr

namespace Transcript

def prepare (t : FileTree) (path : Path) : Except IoError Unit × FileTree :=
  match path.parent? with
  | some above => t.makeDirectories above
  | none => (.ok (), t)

/-- Opens an empty transcript, after making the directories above it, which stay if the file cannot
be opened. -/
def create (t : FileTree) (path : Path) : Except ServiceError Transcript × FileTree :=
  match prepare t path with
  | (.error e, t) => (.error (.io none e), t)
  | (.ok (), t) =>
    match t.create path with
    | .error e => (.error (.io (some path.text) e), t)
    | .ok (file, t) => (.ok ⟨path, file⟩, t)

/-- Writes one record at the end of what this transcript has written. -/
def append (tr : Transcript) (t : FileTree) (r : Record) :
    Except ServiceError (Transcript × FileTree) :=
  match t.write tr.file r.bytes with
  | .error e => .error (.io none e)
  | .ok (file, t) => .ok ({ tr with file := file }, t)

/-- Removes the file under the name it was opened with. -/
def remove (tr : Transcript) (t : FileTree) : Except ServiceError FileTree :=
  match FileTree.sync tr.file with
  | .error e => .error (.io none e)
  | .ok () =>
    match t.remove tr.path with
    | .error e => .error (.io none e)
    | .ok t => .ok t

end Transcript

end CommandLog
