import CommandLog.Proofs.Hub.Run

/-! # The clock of a hub

No task moves the clock, changes what it shows or how long a wait for the lock may last: time passes
in the events that say so, and in no others.
-/

namespace CommandLog

namespace Resources

variable {r : Resources}

/-- The clock, what it shows at each time, and how long a wait may last. -/
def clock (r : Resources) : Nat × (Nat → ZonedTime) × Span :=
  (r.now, r.dial, r.timeout)

@[simp] theorem clock_transcribe (r : Resources) (record : Record) :
    (r.transcribe record).clock = r.clock := by
  unfold transcribe
  split
  · rfl
  · split <;> rfl

end Resources

@[simp] theorem Operation.clock_act (op : Operation) (r : Resources) :
    (op.act r).2.clock = r.clock := by
  cases op with
  | seekTo h d => simp only [act]; split <;> rfl
  | seek h target => simp only [act]; split <;> rfl
  | _ => rfl

variable {id : TaskId} {r r' : Resources} {d : Option Deed}

namespace Session

variable {s s' : Session}

theorem Move.clock (m : s.Move id r d s' r') : r'.clock = r.clock := by
  cases m with
  | copy => exact r.clock_transcribe _
  | _ => rfl

theorem clock_kill (s : Session) (id : TaskId) (r : Resources) :
    (s.kill id r).2.clock = r.clock := by
  unfold kill
  split <;> rfl

end Session

namespace Errand

variable {e e' : Errand}

theorem clock_leaveDevice (e : Errand) (id : TaskId) (r : Resources) :
    (e.leaveDevice id r).clock = r.clock := by
  unfold leaveDevice
  split <;> rfl

theorem Move.clock (m : e.Move id r d e' r') : r'.clock = r.clock := by
  cases m with
  | gather | queue | hold | tick => rfl
  | collect => rw [clock_leaveDevice, Operation.clock_act]
  | act => exact (e.clock_leaveDevice id _).trans (e.operation.clock_act r)
  | expired => exact e.clock_leaveDevice id _
  | copy => exact r.clock_transcribe _

theorem clock_kill (e : Errand) (id : TaskId) (r : Resources) :
    (e.kill id r).2.clock = r.clock := by
  unfold kill
  split
  · rfl
  · rfl
  · exact e.clock_leaveDevice id _

theorem clock_letGo (e : Errand) (r : Resources) : (e.letGo r).2.clock = r.clock := by
  unfold letGo
  split <;> rfl

end Errand

namespace Ticker

variable {t t' : Ticker}

theorem Move.clock (m : t.Move id r d t' r') : r'.clock = r.clock := by
  cases m with
  | tick _ hm => exact hm.clock
  | _ => rfl

theorem clock_kill (t : Ticker) (id : TaskId) (r : Resources) :
    (t.kill id r).2.clock = r.clock := by
  unfold kill
  split
  case h_2 e _ => exact e.clock_kill id r
  all_goals rfl

end Ticker

theorem Task.Change.clock {ev : Hub.Event} {t t' : Task} (c : Change id r ev t d t' r') :
    r'.clock = r.clock := by
  cases c with
  | session m => exact m.clock
  | errand m => exact m.clock
  | ticker m | fire m => exact m.clock
  | kill =>
    cases t with
    | session s => exact s.clock_kill id r
    | errand e => exact e.clock_kill id r
    | ticker t => exact t.clock_kill id r
  | letGo e => exact e.clock_letGo r
  | feed | allow | warn => rfl

namespace Hub

variable {h : Hub} {ev : Event} {evs : List Event}

def Event.duration : Event → Nat
  | elapse ms => ms
  | _ => 0

theorem clock_next (h : Hub) (ev : Event) :
    (h.next ev).resources.clock =
      (h.resources.now + ev.duration, h.resources.dial, h.resources.timeout) := by
  by_cases hd : ∃ ms, ev = .elapse ms
  · obtain ⟨ms, rfl⟩ := hd
    rfl
  · have hz : ev.duration = 0 := by
      cases ev with
      | elapse ms => exact absurd ⟨ms, rfl⟩ hd
      | _ => rfl
    have hr := h.next_result ev
    generalize h.next ev = h', h.part? ev = entry at hr ⊢
    rw [hz]
    cases hr with
    | spawn | nothing => rfl
    | elapse ms => exact absurd ⟨ms, rfl⟩ hd
    | change _ hc => exact hc.clock

theorem now_next (h : Hub) (ev : Event) :
    (h.next ev).resources.now = h.resources.now + ev.duration :=
  congrArg Prod.fst (h.clock_next ev)

theorem dial_next (h : Hub) (ev : Event) : (h.next ev).resources.dial = h.resources.dial :=
  congrArg (fun c => c.2.1) (h.clock_next ev)

theorem timeout_next (h : Hub) (ev : Event) :
    (h.next ev).resources.timeout = h.resources.timeout :=
  congrArg (fun c => c.2.2) (h.clock_next ev)

end Hub

end CommandLog
