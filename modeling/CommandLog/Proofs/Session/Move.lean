import CommandLog.Session
import CommandLog.Proofs.Framing.Reader
import CommandLog.Proofs.Hub.Deed
import CommandLog.Proofs.Hub.Turn

/-! # The moves of a session

Every step of a session is one of a few moves, each with its exit; what an exchange sends, keeps or
gives back can be read off them. A move changes the store only where a record is appended.
-/

namespace CommandLog

/-- Whether a session can fail so before it asks for the lock. -/
def LogError.isFraming : LogError → Bool
  | .io _ | .exhausted _ => true
  | _ => false

namespace Session

open FairLock

def deed? (s : Session) (id : TaskId) (r : Resources) : Option Deed :=
  match s.stage with
  | .queued request _ => if r.lock.holder = some id then some (.exchange request) else none
  | _ => none

inductive Move (s : Session) (id : TaskId) (r : Resources) :
    Option Deed → Session → Resources → Prop where
  /-- Bytes come in, or the stream pauses. -/
  | receive {as : List Arrival} {reader : LineReader} : s.stage = .reading →
      reader.limit = s.reader.limit →
      reader.buffer ++ as.flatMap Arrival.bytes = s.reader.buffer ++ s.wire.awaited →
      Move s id r none { s with wire := { s.wire with arrivals := as }, reader := reader } r
  | frame {l : Bytes} {reader : LineReader} : s.stage = .reading →
      reader.limit = s.reader.limit → s.reader.buffer.firstLine? = some (l, reader.buffer) →
      (∀ m ∈ s.reader.limit, l.length ≤ m) →
      Move s id r none
        { s with reader := reader, stage := .queued (some (.ofRecord ⟨l⟩)) r.deadline }
        (r.request id)
  /-- The stream has ended without a newline. -/
  | ended {as : List Arrival} {reader : LineReader} : s.stage = .reading →
      reader.limit = s.reader.limit →
      Move s id r none
        { s with
          wire := { s.wire with arrivals := as }
          reader := reader
          stage := .queued none r.deadline }
        (r.request id)
  | broken {as : List Arrival} {reader : LineReader} {cause : LogError} : s.stage = .reading →
      reader.limit = s.reader.limit → cause.isFraming = true →
      Move s id r none
        { s with
          wire := { s.wire with arrivals := as }
          reader := reader
          stage := .closing (.error (.log cause)) } r
  | expired {request : Option Command} {deadline : Nat} : s.stage = .queued request deadline →
      r.lock.holder ≠ some id → deadline ≤ r.now →
      Move s id r none { s with stage := .closing (.error (.log r.lockTimeout)) } (r.withdraw id)
  | store {record : Record} {deadline : Nat} :
      s.stage = .queued (some (.append record)) deadline → r.lock.holder = some id →
      Move s id r (some (.exchange (some (.append record))))
        { s with stage := .copying record (r.append record).2 } (r.append record).1
  | seek {d : Directive} {deadline offset : Nat} : s.stage = .queued (some (.seek d)) deadline →
      r.lock.holder = some id → r.store.locate d = .ok offset →
      Move s id r (some (.exchange (some (.seek d))))
        { s with stage := reply (.sought offset) (r.store.readFrom offset) } r
  | astray {d : Directive} {deadline : Nat} {cause : LogError} :
      s.stage = .queued (some (.seek d)) deadline → r.lock.holder = some id →
      r.store.locate d = .error cause →
      Move s id r (some (.exchange (some (.seek d))))
        { s with stage := .closing (.error (.log cause)) } r.release
  | replay {deadline : Nat} : s.stage = .queued none deadline → r.lock.holder = some id →
      Move s id r (some (.exchange none))
        { s with stage := reply .replayed (r.store.readFrom 0) } r
  | copy {record : Record} {evicted : Bool} : s.stage = .copying record evicted →
      Move s id r none { s with stage := reply (.appended evicted) (r.store.readFrom 0) }
        (r.transcribe record)
  | send {outcome : Outcome} {rest : Bytes} {n : Nat} {intake : Intake} :
      s.stage = .replying outcome rest →
      Move s id r none
        { s with
          wire := { s.wire with sent := s.wire.sent ++ rest.take n, intake := intake }
          stage := .replying outcome (rest.drop n) } r
  | cut {outcome : Outcome} {rest : Bytes} {cause : IoError} {intake : Intake} :
      s.stage = .replying outcome rest →
      Move s id r none
        { s with
          wire := { s.wire with intake := intake }
          stage := .closing (.error (.io none cause)) } r.release
  | sent {outcome : Outcome} : s.stage = .replying outcome [] →
      Move s id r none { s with stage := .flushing outcome } r
  | flush {outcome : Outcome} : s.stage = .flushing outcome → s.wire.flushFailure = none →
      Move s id r none { s with wire := s.wire.flush.2, stage := .closing (.ok outcome) } r.release
  | unflushed {outcome : Outcome} {cause : IoError} : s.stage = .flushing outcome →
      s.wire.flushFailure = some cause →
      Move s id r none
        { s with wire := s.wire.flush.2, stage := .closing (.error (.io none cause)) } r.release
  | close {result : Except ServiceError Outcome} : s.stage = .closing result →
      Move s id r none { s with wire := s.wire.shutdown.2, stage := .closed result } r

variable {s s' : Session} {id : TaskId} {r r' : Resources}

theorem deed?_queued {request : Option Command} {deadline : Nat}
    (hs : s.stage = .queued request deadline) :
    s.deed? id r = if r.lock.holder = some id then some (.exchange request) else none := by
  simp [deed?, hs]

theorem deed?_eq_none (hs : ∀ request deadline, s.stage ≠ .queued request deadline) :
    s.deed? id r = none := by
  unfold deed?
  split
  · exact absurd ‹_› (hs _ _)
  · rfl

theorem receive?_move (hs : s.stage = .reading) (h : s.receive? id r = some (s', r')) :
    s.Move id r none s' r' := by
  unfold receive? at h
  generalize hp : s.reader.poll = d at h
  cases hp ▸ s.reader.polled with
  | line hf hl =>
    obtain ⟨rfl, rfl⟩ := Prod.mk.inj (Option.some.inj h)
    exact .frame hs rfl hf (LineReader.excess?_eq_none_iff.mp hl)
  | overlong hf hl =>
    obtain ⟨rfl, rfl⟩ := Prod.mk.inj (Option.some.inj h)
    obtain ⟨_, _, _, rfl⟩ := LineReader.exists_of_excess? hl
    exact .broken hs rfl rfl
  | overfull hn hl =>
    obtain ⟨rfl, rfl⟩ := Prod.mk.inj (Option.some.inj h)
    obtain ⟨_, _, _, rfl⟩ := LineReader.exists_of_excess? hl
    exact .broken hs rfl rfl
  | unaffordable hn hl hc hg =>
    obtain ⟨rfl, rfl⟩ := Prod.mk.inj (Option.some.inj h)
    exact .broken hs rfl rfl
  | @bytes capacity hn hl hc =>
    dsimp only at h
    have hw := s.wire.read_snd (capacity - s.reader.buffered)
    have hg := s.wire.read_awaited (capacity - s.reader.buffered)
    split at h
    case h_1 w he =>
      obtain ⟨rfl, rfl⟩ := Prod.mk.inj (Option.some.inj h)
      rw [he] at hw
      obtain ⟨as, rfl⟩ : ∃ as, w = { s.wire with arrivals := as } := ⟨_, hw⟩
      exact .ended hs rfl
    case h_2 bs w _ he =>
      obtain ⟨rfl, rfl⟩ := Prod.mk.inj (Option.some.inj h)
      rw [he] at hw hg
      obtain ⟨as, rfl⟩ : ∃ as, w = { s.wire with arrivals := as } := ⟨_, hw⟩
      refine .receive hs rfl ?_
      rw [← hg, ← List.append_assoc]
      rfl
    case h_3 cause w he =>
      obtain ⟨rfl, rfl⟩ := Prod.mk.inj (Option.some.inj h)
      rw [he] at hw
      obtain ⟨as, rfl⟩ : ∃ as, w = { s.wire with arrivals := as } := ⟨_, hw⟩
      exact .broken hs rfl rfl
    case h_4 w he =>
      obtain ⟨rfl, rfl⟩ := Prod.mk.inj (Option.some.inj h)
      rw [he] at hw hg
      obtain ⟨as, rfl⟩ : ∃ as, w = { s.wire with arrivals := as } := ⟨_, hw⟩
      exact .receive hs rfl (by rw [← hg]; rfl)
    case h_5 => cases h

theorem send?_move {outcome : Outcome} {rest : Bytes} (hs : s.stage = .replying outcome rest)
    (h : s.send? outcome rest r = some (s', r')) : s.Move id r none s' r' := by
  unfold send? at h
  split at h
  case isTrue hr =>
    obtain ⟨rfl, rfl⟩ := Prod.mk.inj (Option.some.inj h)
    exact .sent (hr ▸ hs)
  case isFalse =>
    generalize ho : s.wire.write rest = o at h
    cases ho ▸ s.wire.written rest with
    | @taken n intake =>
      cases n with
      | zero =>
        obtain ⟨rfl, rfl⟩ := Prod.mk.inj (Option.some.inj h)
        rw [List.take_zero, List.append_nil]
        exact .cut hs
      | succ n =>
        obtain ⟨rfl, rfl⟩ := Prod.mk.inj (Option.some.inj h)
        exact .send hs
    | failure =>
      obtain ⟨rfl, rfl⟩ := Prod.mk.inj (Option.some.inj h)
      exact .cut hs
    | wait => cases h

theorem step?_move (h : s.step? id r = some (s', r')) : s.Move id r (s.deed? id r) s' r' := by
  unfold step? at h
  split at h
  case h_1 hs =>
    rw [deed?_eq_none (by simp [hs])]
    exact receive?_move hs h
  case h_2 request deadline hs =>
    rw [deed?_queued hs]
    split at h
    case isTrue hh =>
      rw [if_pos hh]
      unfold enter at h
      split at h
      case h_1 record =>
        obtain ⟨rfl, rfl⟩ := Prod.mk.inj (Option.some.inj h)
        exact .store hs hh
      case h_2 d =>
        split at h
        case h_1 offset ho =>
          obtain ⟨rfl, rfl⟩ := Prod.mk.inj (Option.some.inj h)
          exact .seek hs hh ho
        case h_2 cause ho =>
          obtain ⟨rfl, rfl⟩ := Prod.mk.inj (Option.some.inj h)
          exact .astray hs hh ho
      case h_3 =>
        obtain ⟨rfl, rfl⟩ := Prod.mk.inj (Option.some.inj h)
        exact .replay hs hh
    case isFalse hh =>
      rw [if_neg hh]
      split at h
      case isTrue hd =>
        obtain ⟨rfl, rfl⟩ := Prod.mk.inj (Option.some.inj h)
        exact .expired hs hh hd
      case isFalse => cases h
  case h_3 record evicted hs =>
    obtain ⟨rfl, rfl⟩ := Prod.mk.inj (Option.some.inj h)
    rw [deed?_eq_none (by simp [hs]), Resources.store_transcribe]
    exact .copy hs
  case h_4 outcome rest hs =>
    rw [deed?_eq_none (by simp [hs])]
    exact send?_move hs h
  case h_5 outcome hs =>
    rw [deed?_eq_none (by simp [hs])]
    unfold Wire.flush at h
    cases hf : s.wire.flushFailure with
    | none =>
      rw [hf] at h
      obtain ⟨rfl, rfl⟩ := Prod.mk.inj (Option.some.inj h)
      rw [← hf]
      exact .flush hs hf
    | some cause =>
      rw [hf] at h
      obtain ⟨rfl, rfl⟩ := Prod.mk.inj (Option.some.inj h)
      rw [← hf]
      exact .unflushed hs hf
  case h_6 result hs =>
    obtain ⟨rfl, rfl⟩ := Prod.mk.inj (Option.some.inj h)
    rw [deed?_eq_none (by simp [hs])]
    exact .close hs
  all_goals cases h

theorem deed?_of_step?_eq_none (h : s.step? id r = none) : s.deed? id r = none := by
  unfold deed?
  split
  case h_1 hs =>
    split
    · simp [step?, *] at h
    · rfl
  case h_2 => rfl

def stake (s : Session) : Stake :=
  match s.stage with
  | .queued _ _ => .asked
  | .copying _ _ | .replying _ _ | .flushing _ => .inside
  | _ => .out

variable {d : Option Deed}

theorem Move.turn (m : s.Move id r d s' r') : Turn id r.lock s.stake r'.lock s'.stake := by
  cases m with
  | receive hs => simpa [stake, hs] using .keep
  | frame hs | ended hs => simpa [stake, hs] using .ask
  | broken hs | close hs => simpa [stake, hs] using .keep
  | expired hs => simpa [stake, hs] using .withdraw
  | store hs hh | seek hs hh | replay hs hh => simpa [stake, hs, reply] using .enter hh
  | astray hs hh => simpa [stake, hs] using .release (.inr ⟨rfl, hh⟩)
  | copy hs => simpa [stake, hs, reply] using .keep
  | send hs | sent hs => simpa [stake, hs] using .keep
  | cut hs | flush hs | unflushed hs => simpa [stake, hs] using .release (.inl rfl)

theorem Move.locks {d : Deed} (m : s.Move id r (some d) s' r') :
    r.lock.holder = some id ∧ s.stake = .asked ∧ s'.stake ≠ .asked := by
  cases m with
  | store hs hh | seek hs hh | astray hs hh | replay hs hh =>
    exact ⟨hh, by simp [stake, hs], by simp [stake, reply]⟩

theorem Move.asked (m : s.Move id r d s' r') {x : Deed} (hx : x ∈ d) :
    ∃ request deadline, x = .exchange request ∧ s.stage = .queued request deadline := by
  cases m with
  | store hs | seek hs | astray hs | replay hs =>
    obtain rfl := Option.some.inj hx
    exact ⟨_, _, rfl, hs⟩
  | _ => cases hx

theorem Move.ledger (m : s.Move id r d s' r') :
    r'.ledger = (d.elim r fun d => (d.act r).2).ledger := by
  cases m with
  | copy => exact r.ledger_transcribe _
  | seek _ _ ho => simp [Deed.act, exchange, ho]
  | astray _ _ ho => simp [Deed.act, exchange, ho]
  | _ => rfl

theorem stake_kill (s : Session) (id : TaskId) (r : Resources) : (s.kill id r).1.stake = .out := by
  unfold kill
  split
  case h_1 hs | h_2 hs => simp [stake, hs]
  case h_3 => rfl

theorem kill_turn (s : Session) (id : TaskId) (r : Resources) :
    Turn id r.lock s.stake (s.kill id r).2.lock .out := by
  unfold kill
  split
  case h_1 hs | h_2 hs => simpa [stake, hs] using .keep
  case h_3 => exact .withdraw

theorem ledger_kill (s : Session) (id : TaskId) (r : Resources) :
    (s.kill id r).2.ledger = r.ledger := by
  unfold kill
  split <;> rfl

end Session

end CommandLog
