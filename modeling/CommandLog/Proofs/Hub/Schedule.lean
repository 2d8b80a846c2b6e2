import CommandLog.Hub.Ticker
import Mathlib.Data.List.Chain
import Mathlib.Data.List.Induction

/-! # Schedules of ticks

When the next tick is due follows from when the ticks before it were taken. However late those were,
a tick is due a whole number of periods after the start or later, and what was missed is not made up
for. A tick brings one record into the log or gives up its wait for the lock, and the next one is
not taken before.
-/

namespace CommandLog.Ticker

/-- The times at which ticks were taken, and when the next one is due. -/
inductive Schedule (period start : Span) : List Nat → Span → Prop where
  | start : Schedule period start [] (start.add period)
  | take {times : List Nat} {due : Span} {now : Nat} : Schedule period start times due →
      due.nanoseconds ≤ (Span.ofMilliseconds now).nanoseconds →
      Schedule period start (times ++ [now]) (nextDue period due (.ofMilliseconds now))

def lastTime (start : Span) (times : List Nat) : Span :=
  times.getLast?.elim start .ofMilliseconds

variable {period start due taken : Span} {times : List Nat}

/-- The next tick is due a period after the last one was due or later, but no later than a period
after that was taken, and hardly earlier. -/
theorem nextDue_bounds (period : Span) (h : due.nanoseconds ≤ taken.nanoseconds) :
    due.nanoseconds + period.nanoseconds ≤ (nextDue period due taken).nanoseconds ∧
      (nextDue period due taken).nanoseconds ≤ taken.nanoseconds + period.nanoseconds ∧
      taken.nanoseconds + period.nanoseconds ≤
        (nextDue period due taken).nanoseconds + tolerance.nanoseconds := by
  unfold nextDue
  split
  case isTrue ht =>
    simp only [Span.add] at ht ⊢
    omega
  case isFalse =>
    simp only [Span.add]
    omega

namespace Schedule

theorem periods_le (h : Schedule period start times due) :
    start.nanoseconds + (times.length + 1) * period.nanoseconds ≤ due.nanoseconds := by
  induction h with
  | start => simp [Span.add]
  | take _ hd ih =>
    have hb := (nextDue_bounds period hd).1
    rw [List.length_append, List.length_singleton, Nat.succ_mul]
    omega

/-- No tick is taken before as many periods have passed as there are ticks up to it. -/
theorem late (h : Schedule period start times due) {k time : Nat} (hk : times[k]? = some time) :
    start.nanoseconds + (k + 1) * period.nanoseconds ≤ (Span.ofMilliseconds time).nanoseconds := by
  induction h with
  | start => cases hk
  | @take times due now hs hd ih =>
    rcases Nat.lt_trichotomy k times.length with hlt | rfl | hgt
    · exact ih (by rwa [List.getElem?_append_left hlt] at hk)
    · obtain rfl : now = time := by simpa using hk
      exact hs.periods_le.trans hd
    · rw [List.getElem?_eq_none (by simp; omega)] at hk
      cases hk

/-- The next tick is due no later than a period after the last one was taken, and at most the
tolerance earlier. -/
theorem near (h : Schedule period start times due) :
    due.nanoseconds ≤ (lastTime start times).nanoseconds + period.nanoseconds ∧
      (lastTime start times).nanoseconds + period.nanoseconds ≤
        due.nanoseconds + tolerance.nanoseconds := by
  cases h with
  | start => simp [lastTime, Span.add]
  | take _ hd => simpa [lastTime] using (nextDue_bounds period hd).2

theorem spaced (h : Schedule period start times due) :
    times.IsChain fun a b => (Span.ofMilliseconds a).nanoseconds + period.nanoseconds ≤
      (Span.ofMilliseconds b).nanoseconds + tolerance.nanoseconds := by
  induction h with
  | start => exact .nil
  | @take times due now hs hd ih =>
    refine List.isChain_append.mpr ⟨ih, .singleton now, fun a ha b hb => ?_⟩
    obtain rfl : now = b := by simpa using hb
    have hn := hs.near.2
    rw [lastTime, Option.mem_def.mp ha, Option.elim_some] at hn
    omega

theorem length_mul_le (h : Schedule period start times due) {now : Nat}
    (hn : ∀ time ∈ times, time ≤ now) : times = [] ∨
      start.nanoseconds + times.length * period.nanoseconds ≤
        (Span.ofMilliseconds now).nanoseconds := by
  rcases List.eq_nil_or_concat times with rfl | ⟨earlier, last, rfl⟩
  · exact .inl rfl
  · have hl := h.late (show (earlier.concat last)[earlier.length]? = some last by simp)
    have hm : last ≤ now := hn last (by simp)
    rw [List.concat_eq_append, List.length_append, List.length_singleton]
    exact .inr (hl.trans (Nat.mul_le_mul_right _ hm))

end Schedule

inductive Act where
  /-- Takes a tick, at a time of the clock. -/
  | take (time : Nat)
  | store (record : Record)
  | giveUp (time : Nat) (cause : LogError)

def Act.time? : Act → Option Nat
  | take time => some time
  | _ => none

def Act.record? : Act → Option Record
  | store record => some record
  | _ => none

def Act.isTake (a : Act) : Bool :=
  a.time?.isSome

def takeTimes (log : List Act) : List Nat :=
  log.filterMap Act.time?

def records (log : List Act) : List Record :=
  log.filterMap Act.record?

@[simp] theorem takeTimes_nil : takeTimes [] = [] := rfl

@[simp] theorem records_nil : records [] = [] := rfl

@[simp] theorem takeTimes_cons (a : Act) (log : List Act) :
    takeTimes (a :: log) = a.time?.toList ++ takeTimes log := by
  cases a <;> rfl

@[simp] theorem records_cons (a : Act) (log : List Act) :
    records (a :: log) = a.record?.toList ++ records log := by
  cases a <;> rfl

@[simp] theorem takeTimes_append (log log' : List Act) :
    takeTimes (log ++ log') = takeTimes log ++ takeTimes log' :=
  List.filterMap_append

@[simp] theorem records_append (log log' : List Act) :
    records (log ++ log') = records log ++ records log' :=
  List.filterMap_append

/-- Ticks one after the other, each with what it comes to: a record with the time at which it was
taken, or a wait that has lasted as long as waits may. -/
inductive Regular (dial : Nat → ZonedTime) (timeout : Span) : List Act → Prop where
  | nil : Regular dial timeout []
  | stored {log : List Act} (time : Nat) : Regular dial timeout log →
      Regular dial timeout (log ++ [.take time, .store (Timestamp.record (dial time))])
  | gaveUp {log : List Act} {time later : Nat} : Regular dial timeout log →
      time + timeout.ceilMilliseconds ≤ later →
      Regular dial timeout
        (log ++ [.take time, .giveUp later (.lockUnavailable (.timedOut timeout))])

/-- At most one tick has not come to anything yet, the last one. -/
def InTurn (dial : Nat → ZonedTime) (timeout : Span) (log : List Act) : Prop :=
  Regular dial timeout log ∨
    ∃ done time, Regular dial timeout done ∧ log = done ++ [.take time]

variable {dial : Nat → ZonedTime} {timeout : Span} {log : List Act}

theorem Regular.length_records_le (h : Regular dial timeout log) :
    (records log).length ≤ (takeTimes log).length := by
  induction h with
  | nil => exact le_rfl
  | stored time _ ih => simpa [Act.time?, Act.record?] using ih
  | gaveUp _ _ ih => simpa [Act.time?, Act.record?] using Nat.le_succ_of_le ih

theorem Regular.ne_take (h : Regular dial timeout log) (done : List Act) (time : Nat) :
    log ≠ done ++ [.take time] := by
  have hlast : ∀ {log : List Act} {a b : Act}, (∀ time, b ≠ .take time) →
      log ++ [a, b] ≠ done ++ [.take time] := by
    intro log a b hb he
    rw [List.append_cons] at he
    exact hb time (List.singleton_inj.mp (List.append_inj' he rfl).2)
  cases h with
  | nil => simp
  | stored | gaveUp => exact hlast nofun

theorem InTurn.length_records_le (h : InTurn dial timeout log) :
    (records log).length ≤ (takeTimes log).length := by
  rcases h with h | ⟨done, time, h, rfl⟩
  · exact h.length_records_le
  · simpa [Act.time?, Act.record?] using Nat.le_succ_of_le h.length_records_le

end CommandLog.Ticker
