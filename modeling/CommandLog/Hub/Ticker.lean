import CommandLog.Hub.Errand

/-! # Tickers

A ticker appends a time record every period, the first one period after its start; whether its
records go into the transcript is up to whoever starts it. A tick that is taken at most five
milliseconds late does not shift those after it; a later one does, so that missed ticks are never
made up by a burst. While a tick waits for the lock, the ticker takes no other tick and does not
notice that it is to stop. Periods and the times at which ticks are due are exact; a tick is taken
at a whole millisecond of the clock.
-/

namespace CommandLog

/-- How late a tick may be taken without shifting the next one. -/
def Ticker.tolerance : Span := .ofMilliseconds 5

inductive Ticker.Stage where
  | waiting
  | ticking (errand : Errand)
  | stopped
  | killed

structure Ticker where
  period : Span
  /-- Whether the records go into the transcript. -/
  copies : Bool
  /-- When the next tick is due, since the start of the clock. -/
  due : Span
  stopping : Bool := false
  stage : Ticker.Stage := .waiting

namespace Ticker

/-- A ticker that starts at a time, counted from the start of the clock. Without a period it is over
at once. -/
def start (period time : Span) (copies : Bool) : Ticker :=
  { period := period, copies := copies, due := time.add period
    stage := if period.nanoseconds = 0 then .killed else .waiting }

def operation (t : Ticker) (record : Record) : Operation :=
  if t.copies then .tick record else .append record

/-- When the tick after one that was due and taken at the given times is due. -/
def nextDue (period due taken : Span) : Span :=
  if taken.nanoseconds ≤ (due.add tolerance).nanoseconds then due.add period else taken.add period

def fire? (t : Ticker) (r : Resources) : Option Ticker :=
  match t.stage with
  | .waiting =>
    let now := Span.ofMilliseconds r.now
    if t.due.nanoseconds ≤ now.nanoseconds then
      some { t with
        due := nextDue t.period t.due now
        stage := .ticking { operation := t.operation (Timestamp.record (r.dial r.now)) } }
    else none
  | _ => none

/-- The next step of a ticker, if it can take one. A ticker told to stop does so rather than take
another tick. -/
def step? (t : Ticker) (id : TaskId) (r : Resources) : Option (Ticker × Resources) :=
  match t.stage with
  | .waiting =>
    if t.stopping then some ({ t with stage := .stopped }, r)
    else (t.fire? r).map fun t => (t, r)
  | .ticking e =>
    match e.stage with
    | .finished _ => some ({ t with stage := .waiting }, r)
    | _ => (e.step? id r).map fun (e, r) => ({ t with stage := .ticking e }, r)
  | .stopped | .killed => none

def kill (t : Ticker) (id : TaskId) (r : Resources) : Ticker × Resources :=
  match t.stage with
  | .waiting => ({ t with stage := .killed }, r)
  | .ticking e => ({ t with stage := .killed }, (e.kill id r).2)
  | .stopped | .killed => (t, r)

def wakes? (t : Ticker) : Option Nat :=
  match t.stage with
  | .waiting => some t.due.ceilMilliseconds
  | .ticking e => e.wakes?
  | .stopped | .killed => none

end Ticker

end CommandLog
