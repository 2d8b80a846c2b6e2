/-! # Draining

Workers get until a common deadline to finish. They are waited for one after another; whoever has
finished when its turn comes is let go, and whoever has not is aborted, but not before the deadline.
-/

namespace CommandLog

inductive Verdict where
  | finished
  | aborted
  | waiting
  deriving DecidableEq, Repr

namespace Drain

/-- A worker that is over has finished, also after the deadline. -/
def verdict (deadline now : Nat) (isOver : Bool) : Verdict :=
  if isOver then .finished
  else if deadline ≤ now then .aborted
  else .waiting

def isOverAt (completion : Option Nat) (time : Nat) : Bool :=
  completion.any (· ≤ time)

def waitEnd (deadline now : Nat) (completion : Option Nat) : Nat :=
  max now (completion.elim deadline (min deadline))

/-- The verdicts on workers, in their order, and the time at which the last one falls. -/
def verdicts (deadline : Nat) : Nat → List (Option Nat) → List Verdict × Nat
  | now, [] => ([], now)
  | now, completion :: rest =>
    let now := waitEnd deadline now completion
    let (vs, last) := verdicts deadline now rest
    (verdict deadline now (isOverAt completion now) :: vs, last)

/-- The verdicts on workers that get a time of grace from a start on. -/
def run (start grace : Nat) (completions : List (Option Nat)) : List Verdict × Nat :=
  verdicts (start + grace) start completions

end Drain

end CommandLog
